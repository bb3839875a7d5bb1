/-
nginx's weighted round robin over the peers of an upstream, with its backup
peers and failed peers, and the downs that a health checker sets from Lua.
-/
import Mathlib.Algebra.BigOperators.Fin
import OpenResty.Lib.Rotation

namespace OpenResty.Nginx.RoundRobin

open List Function

/-- `ngx_http_upstream_rr_peer_t`, with integers that do not wrap. -/
structure Peer where
  current_weight : Int
  effective_weight : Int
  weight : Int
  conns : Int
  fails : Nat
  accessed : Int
  checked : Int
  max_fails : Nat
  fail_timeout : Int
  down : Bool

/-- `ngx_http_upstream_rr_peers_t`, without its `next`. -/
structure Peers where
  single : Bool
  peer : List Peer

/-- `ngx_http_upstream_rr_peer_data_t`: `backup` when `peers` are the backup
peers, and the bits of `tried`. -/
structure PeerData where
  backup : Bool
  current : Option Nat
  tried : Nat → Bool

def PeerData.init : PeerData := { backup := false, current := none, tried := fun _ => false }

def Peer.failing (now : Int) (peer : Peer) : Bool :=
  peer.max_fails ≠ 0 && peer.max_fails ≤ peer.fails && now - peer.checked ≤ peer.fail_timeout

/-- What the loop continues over. -/
def skips (now : Int) (tried : Nat → Bool) (i : Nat) (peer : Peer) : Bool := tried i || peer.down || peer.failing now

def Peer.weigh (peer : Peer) : Peer :=
  { peer with
    current_weight := peer.current_weight + peer.effective_weight
    effective_weight :=
      if peer.effective_weight < peer.weight then peer.effective_weight + 1 else peer.effective_weight }

/-- `best` and its index, when it is compared with peer `q`. -/
def better (best : Option (Nat × Int)) (q : Nat × Int) : Option (Nat × Int) :=
  if best.all (·.2 < q.2) then some q else best

/-- The loop of `ngx_http_upstream_get_peer` from peer `i` on: the peers after
it, `total`, and `best` with its index and weight. -/
def scan (now : Int) (tried : Nat → Bool) :
    Nat → List Peer → Int → Option (Nat × Int) → List Peer × Int × Option (Nat × Int)
  | _, [], total, best => ([], total, best)
  | i, peer :: peers, total, best =>
    if skips now tried i peer then
      let (rest, last) := scan now tried (i + 1) peers total best
      (peer :: rest, last)
    else
      let best := better best (i, peer.weigh.current_weight)
      let (rest, last) := scan now tried (i + 1) peers (total + peer.effective_weight) best
      (peer.weigh :: rest, last)

def Peer.charge (now total : Int) (best : Peer) : Peer :=
  { best with
    current_weight := best.current_weight - total
    checked := if best.fail_timeout < now - best.checked then now else best.checked }

/-- `ngx_http_upstream_get_peer`. -/
def get_peer (now : Int) (rrp : PeerData) (peers : List Peer) : Option (Nat × List Peer × PeerData) :=
  match scan now rrp.tried 0 peers 0 none with
  | (_, _, none) => none
  | (peers, total, some (p, _)) =>
    some (p, peers.modify p (·.charge now total),
      { rrp with current := some p, tried := update rrp.tried p true })

def Peers.modify (peers : Peers) (p : Nat) (f : Peer → Peer) : Peers := { peers with peer := peers.peer.modify p f }

/-- The part of `ngx_http_upstream_get_round_robin_peer` before `failed`. -/
def Peers.get (now : Int) (rrp : PeerData) (peers : Peers) : Option (Peers × PeerData) :=
  let got :=
    if peers.single then
      match peers.peer with
      | [] => none
      | peer :: _ => if peer.down then none else some (0, peers.peer, { rrp with current := some 0 })
    else get_peer now rrp peers.peer
  got.map fun (p, peer, rrp) =>
    ({ peers with peer }.modify p fun peer => { peer with conns := peer.conns + 1 }, rrp)

/-- All peers failed, mark them as live. -/
def Peers.revive (peers : Peers) : Peers := { peers with peer := peers.peer.map fun peer => { peer with fails := 0 } }

/-- The peers at `false`, the backup peers at `true`. -/
abbrev Upstream := Bool → Peers

/-- `ngx_http_upstream_get_round_robin_peer`; the Boolean is `NGX_OK`. -/
def get_round_robin_peer (now : Int) (rrp : PeerData) (u : Upstream) : Bool × Upstream × PeerData :=
  match (u rrp.backup).get now rrp with
  | some (peers, rrp') => (true, update u rrp.backup peers, rrp')
  | none =>
    if rrp.backup = false ∧ (u true).peer ≠ [] then
      match (u true).get now { rrp with backup := true, tried := fun _ => false } with
      | some (peers, rrp') => (true, update u true peers, rrp')
      | none => (false, fun b => (u b).revive, { rrp with backup := true, tried := fun _ => false })
    else (false, update u rrp.backup (u rrp.backup).revive, rrp)

def Peer.free (now : Int) (failed : Bool) (peer : Peer) : Peer :=
  if failed then
    let effective_weight :=
      if peer.max_fails ≠ 0 then peer.effective_weight - peer.weight / peer.max_fails else peer.effective_weight
    { peer with
      fails := peer.fails + 1, accessed := now, checked := now
      effective_weight := if effective_weight < 0 then 0 else effective_weight }
  else if peer.accessed < peer.checked then { peer with fails := 0 }
  else peer

/-- `ngx_http_upstream_free_round_robin_peer`, with `pc->tries`. -/
def free_round_robin_peer (now : Int) (rrp : PeerData) (failed : Bool) (u : Upstream) (tries : Nat) :
    Upstream × Nat :=
  let freed (f : Peer → Peer) : Upstream :=
    match rrp.current with
    | none => u
    | some p =>
      update u rrp.backup ((u rrp.backup).modify p fun peer => { f peer with conns := peer.conns - 1 })
  if (u rrp.backup).single then (freed id, 0) else (freed (·.free now failed), tries - 1)

/-- `ngx_http_lua_upstream_set_peer_down`. -/
def set_peer_down (backup : Bool) (id : Nat) (value : Bool) (u : Upstream) : Upstream :=
  update u backup ((u backup).modify id fun peer =>
    { peer with down := value, fails := if value then peer.fails else 0 })

/-- A `server` line, for one of its addresses. -/
structure Server where
  weight : Nat
  max_fails : Nat
  fail_timeout : Int
  down : Bool
  weight_pos : 0 < weight

def Server.peer (server : Server) : Peer :=
  { current_weight := 0, effective_weight := server.weight, weight := server.weight, conns := 0, fails := 0
    accessed := 0, checked := 0, max_fails := server.max_fails, fail_timeout := server.fail_timeout
    down := server.down }

/-- `ngx_http_upstream_init_round_robin`. -/
def init_round_robin (servers backup : List Server) : Upstream
  | false => { single := servers.length = 1 ∧ backup = [], peer := servers.map Server.peer }
  | true => { single := false, peer := backup.map Server.peer }

/-- The calls that reach an upstream, of any requests and in any order. -/
inductive Call
  | get (now : Int) (rrp : PeerData)
  | free (now : Int) (rrp : PeerData) (failed : Bool)
  | down (backup : Bool) (id : Nat) (value : Bool)

def Call.apply (u : Upstream) : Call → Upstream
  | .get now rrp => (get_round_robin_peer now rrp u).2.1
  | .free now rrp failed => (free_round_robin_peer now rrp failed u 0).1
  | .down backup id value => set_peer_down backup id value u

variable {now : Int} {tried : Nat → Bool} {i p : Nat} {peer : Peer} {rrp rrp' : PeerData} {l l' l'' : List Peer}

/-! ## One list -/

/-- What the loop makes of peer `i`. -/
def seen (now : Int) (tried : Nat → Bool) (i : Nat) (peer : Peer) : Peer :=
  if skips now tried i peer then peer else peer.weigh

theorem scan_peers (now : Int) (tried : Nat → Bool) (peers : List Peer) (i : Nat) (total : Int)
    (best : Option (Nat × Int)) :
    (∀ j, (scan now tried i peers total best).1[j]? = peers[j]?.map (seen now tried (i + j))) ∧
      ((scan now tried i peers total best).1.map (·.current_weight)).sum + total =
        (peers.map (·.current_weight)).sum + (scan now tried i peers total best).2.1 := by
  induction peers generalizing i total best with
  | nil => simp [scan]
  | cons peer peers ih =>
    have hcons {x : Peer} {rest : List Peer} (hx : x = seen now tried i peer)
        (hrest : ∀ j, rest[j]? = peers[j]?.map (seen now tried (i + 1 + j))) (j : Nat) :
        (x :: rest)[j]? = (peer :: peers)[j]?.map (seen now tried (i + j)) := by
      cases j with
      | zero => simp [hx]
      | succ j => simpa [Nat.add_comm, Nat.add_left_comm] using hrest j
    by_cases hskip : skips now tried i peer
    · obtain ⟨hrest, hsum⟩ := ih (i + 1) total best
      rw [scan, if_pos hskip]
      refine ⟨hcons (if_pos hskip).symm hrest, ?_⟩
      simp only [map_cons, sum_cons]
      omega
    · obtain ⟨hrest, hsum⟩ := ih (i + 1) (total + peer.effective_weight) (better best (i, peer.weigh.current_weight))
      rw [scan, if_neg hskip]
      refine ⟨hcons (if_neg hskip).symm hrest, ?_⟩
      have hweigh : peer.weigh.current_weight = peer.current_weight + peer.effective_weight := rfl
      simp only [map_cons, sum_cons]
      omega

/-- The peers that the loop compares, as `best` holds them. -/
def Shown (now : Int) (tried : Nat → Bool) (i : Nat) (peers : List Peer) (q : Nat × Int) : Prop :=
  ∃ j peer, peers[j]? = some peer ∧ skips now tried (i + j) peer = false ∧ q = (i + j, peer.weigh.current_weight)

theorem shown_cons {peers : List Peer} {q : Nat × Int} :
    Shown now tried i (peer :: peers) q ↔
      (skips now tried i peer = false ∧ q = (i, peer.weigh.current_weight)) ∨ Shown now tried (i + 1) peers q := by
  constructor
  · rintro ⟨_ | j, x, hx, hq⟩
    · cases hx
      exact .inl hq
    · exact .inr ⟨j, x, hx, by rwa [Nat.add_assoc, Nat.add_comm 1]⟩
  · rintro (hq | ⟨j, x, hx, hq⟩)
    · exact ⟨0, peer, rfl, hq⟩
    · exact ⟨j + 1, x, hx, by rwa [Nat.add_comm j, ← Nat.add_assoc]⟩

theorem mem_better {best : Option (Nat × Int)} {q x : Nat × Int} (h : x ∈ better best q) : x ∈ best ∨ x = q := by
  rw [better] at h
  split at h
  · exact .inr (Option.some_inj.mp h).symm
  · exact .inl h

theorem le_better {best : Option (Nat × Int)} {q b : Nat × Int} (h : b ∈ best ∨ b = q) :
    ∃ x ∈ better best q, b.2 ≤ x.2 := by
  rw [better]
  split
  · next hless =>
    refine ⟨q, rfl, ?_⟩
    rcases h with h | rfl
    · rw [Option.mem_def.mp h] at hless
      exact (of_decide_eq_true hless).le
    · rfl
  · next hless =>
    cases best with
    | none => exact absurd rfl hless
    | some x =>
      refine ⟨x, rfl, ?_⟩
      rcases h with h | rfl
      · cases h
        rfl
      · simpa using hless

/-- The last `best` is one of them and not below another. -/
theorem scan_best (now : Int) (tried : Nat → Bool) (peers : List Peer) (i : Nat) (total : Int)
    (best : Option (Nat × Int)) :
    (∀ q ∈ (scan now tried i peers total best).2.2, q ∈ best ∨ Shown now tried i peers q) ∧
      ∀ b, b ∈ best ∨ Shown now tried i peers b → ∃ q ∈ (scan now tried i peers total best).2.2, b.2 ≤ q.2 := by
  induction peers generalizing i total best with
  | nil => exact ⟨fun q hq => .inl hq, fun b hb => ⟨b, hb.resolve_right (by simp [Shown]), le_rfl⟩⟩
  | cons peer peers ih =>
    simp only [shown_cons]
    by_cases hskip : skips now tried i peer
    · simpa [scan, hskip] using ih (i + 1) total best
    · obtain ⟨hfrom, hover⟩ := ih (i + 1) (total + peer.effective_weight) (better best (i, peer.weigh.current_weight))
      simp only [scan, hskip, Bool.false_eq_true, if_false, true_and]
      constructor
      · intro q hq
        rw [← or_assoc]
        exact (hfrom q hq).imp_left mem_better
      · intro b hb
        rw [← or_assoc] at hb
        rcases hb with hb | hb
        · obtain ⟨q, hq, hle⟩ := le_better hb
          obtain ⟨q', hq', hle'⟩ := hover q (.inl hq)
          exact ⟨q', hq', hle.trans hle'⟩
        · exact hover b (.inr hb)

/-- The effective weight of a peer stays within its weight. -/
def Peer.Sound (peer : Peer) : Prop := 0 ≤ peer.effective_weight ∧ peer.effective_weight ≤ peer.weight

/-- A list changes, with its weight moved between its peers. -/
structure Moves (l l' : List Peer) : Prop where
  sum : (l'.map (·.current_weight)).sum = (l.map (·.current_weight)).sum
  sound : (∀ peer ∈ l, peer.Sound) → ∀ peer ∈ l', peer.Sound

theorem Moves.refl : Moves l l := ⟨rfl, id⟩

theorem Moves.trans (h : Moves l l') (h' : Moves l' l'') : Moves l l'' := ⟨h'.sum.trans h.sum, h'.sound ∘ h.sound⟩

theorem sum_modify (f : Peer → Peer) : ∀ {l : List Peer} {p : Nat}, l[p]? = some peer →
    ((l.modify p f).map (·.current_weight)).sum =
      (l.map (·.current_weight)).sum + ((f peer).current_weight - peer.current_weight)
  | [], p, h => by cases h
  | x :: l, 0, h => by
    cases h
    simp only [modify_zero_cons, map_cons, sum_cons]
    omega
  | x :: l, p + 1, h => by
    have hrest := sum_modify f (l := l) h
    simp only [modify_succ_cons, map_cons, sum_cons, hrest]
    omega

theorem sound_modify {f : Peer → Peer} (hl : ∀ peer ∈ l, peer.Sound) (hf : ∀ x, x.Sound → (f x).Sound) :
    ∀ peer ∈ l.modify p f, peer.Sound := by
  intro peer hpeer
  obtain ⟨j, hj⟩ := mem_iff_getElem?.mp hpeer
  rw [getElem?_modify] at hj
  obtain ⟨x, hx, rfl⟩ := Option.map_eq_some_iff.mp hj
  split
  · exact hf x (hl x (mem_of_getElem? hx))
  · exact hl x (mem_of_getElem? hx)

/-- One peer that keeps its weight changes. -/
theorem moves_modify {f : Peer → Peer} (hsum : ∀ x, (f x).current_weight = x.current_weight)
    (hsound : ∀ x, x.Sound → (f x).Sound) : Moves l (l.modify p f) := by
  refine ⟨?_, fun hl => sound_modify hl hsound⟩
  cases h : l[p]? with
  | none => rw [modify_eq_self (getElem?_eq_none_iff.mp h)]
  | some x => rw [sum_modify f h, hsum, Int.sub_self, Int.add_zero]

theorem Peer.Sound.weigh (h : peer.Sound) : peer.weigh.Sound := by
  obtain ⟨hpos, hle⟩ := h
  simp only [Peer.Sound, Peer.weigh]
  split <;> omega

theorem Peer.Sound.free (h : peer.Sound) (failed : Bool) : (peer.free now failed).Sound := by
  obtain ⟨hpos, hle⟩ := h
  have hdiv : 0 ≤ peer.weight / (peer.max_fails : Int) := Int.ediv_nonneg (hpos.trans hle) (Int.natCast_nonneg _)
  rw [Peer.Sound, Peer.free]
  split
  · dsimp only
    split_ifs <;> omega
  · split <;> exact ⟨hpos, hle⟩

/-- A peer that a request can still get. -/
def PeerData.Left (rrp : PeerData) (x : Bool × Option Nat) : Prop :=
  (rrp.backup = x.1 ∧ ∀ p ∈ x.2, rrp.tried p = false) ∨ (rrp.backup = false ∧ x.1 = true)

/-- A request gets a peer that it has not had. -/
structure Gets (rrp rrp' : PeerData) : Prop where
  keep : ∀ x, rrp'.Left x → rrp.Left x
  new : rrp.Left (rrp'.backup, rrp'.current)
  gone : ¬ rrp'.Left (rrp'.backup, rrp'.current)

theorem gets_untried (h : rrp.tried p = false) :
    Gets rrp { rrp with current := some p, tried := update rrp.tried p true } where
  keep := by
    refine fun x hx => hx.imp_left fun ⟨hb, hx⟩ => ⟨hb, fun q hq => ?_⟩
    have hq' : update rrp.tried p true q = false := hx q hq
    by_cases hqp : q = p
    · rwa [hqp]
    · rwa [update_of_ne hqp] at hq'
  new := .inl ⟨rfl, fun q hq => by cases hq; exact h⟩
  gone := by
    rintro (⟨-, hx⟩ | ⟨hfalse, htrue⟩)
    · simpa using hx p rfl
    · exact absurd (hfalse.symm.trans htrue) (by decide)

/-- What the peers gain, `best` pays. -/
theorem get_peer_got (h : get_peer now rrp l = some (p, l', rrp')) :
    Moves l l' ∧ Gets rrp rrp' := by
  obtain ⟨hpeers, hsum⟩ := scan_peers now rrp.tried l 0 0 none
  obtain ⟨hbest, -⟩ := scan_best now rrp.tried l 0 0 none
  rw [get_peer] at h
  generalize scan now rrp.tried 0 l 0 none = r at h hpeers hsum hbest
  obtain ⟨scanned, total, _ | ⟨q, v⟩⟩ := r
  · cases h
  · cases h
    obtain ⟨j, x, hx, hskip, hq⟩ := (hbest _ rfl).resolve_left (by simp)
    obtain rfl : j = p := by simpa using (congrArg Prod.fst hq).symm
    simp only [Nat.zero_add] at hpeers hskip
    have htried : rrp.tried j = false := by
      simp only [skips, Bool.or_eq_false_iff] at hskip
      exact hskip.1.1
    refine ⟨⟨?_, fun hsound => ?_⟩, gets_untried htried⟩
    · have hseen : scanned[j]? = some x.weigh := by rw [hpeers, hx, Option.map_some, seen, if_neg (by simp [hskip])]
      rw [sum_modify _ hseen]
      simp only [Peer.charge] at hsum ⊢
      omega
    · refine sound_modify (fun y hy => ?_) fun _ h => h
      obtain ⟨k, hk⟩ := mem_iff_getElem?.mp hy
      rw [hpeers] at hk
      obtain ⟨x, hx, rfl⟩ := Option.map_eq_some_iff.mp hk
      have hxs := hsound x (mem_of_getElem? hx)
      rw [seen]
      split
      · exact hxs
      · exact hxs.weigh

theorem get_got {peers peers' : Peers} (h : peers.get now rrp = some (peers', rrp')) :
    Moves peers.peer peers'.peer ∧ (peers.single = false → Gets rrp rrp') := by
  obtain ⟨⟨p, l, r⟩, hgot, heq⟩ := Option.map_eq_some_iff.mp h
  cases heq
  have hconns : Moves l (l.modify p fun peer => { peer with conns := peer.conns + 1 }) :=
    moves_modify (fun _ => rfl) fun _ h => h
  split at hgot
  · next hsingle =>
    split at hgot
    · cases hgot
    · split at hgot
      · cases hgot
      · cases hgot
        exact ⟨hconns, fun h => absurd (h.symm.trans hsingle) (by simp)⟩
  · obtain ⟨hmoves, hgets⟩ := get_peer_got hgot
    exact ⟨hmoves.trans hconns, fun _ => hgets⟩

/-- One of the lists changes. -/
theorem Moves.update {u : Upstream} {peers : Peers} {b' : Bool} (h : Moves (u b').peer peers.peer) (b : Bool) :
    Moves (u b).peer (update u b' peers b).peer := by
  by_cases hb : b = b'
  · subst hb
    simpa using h
  · rw [update_of_ne hb]
    exact .refl

theorem moves_revive (peers : Peers) : Moves peers.peer peers.revive.peer := by
  refine ⟨by simp [Peers.revive, comp_def], fun h y hy => ?_⟩
  obtain ⟨x, hx, rfl⟩ := mem_map.mp hy
  exact h x hx

/-- What a request that asks for a peer comes to. -/
theorem asked_get (now : Int) (rrp : PeerData) (u : Upstream) :
    let r := get_round_robin_peer now rrp u
    (∀ b, Moves (u b).peer (r.2.1 b).peer) ∧
      ((∀ b, (u b).single = false) → (∀ x, r.2.2.Left x → rrp.Left x) ∧
        (r.1 = true → rrp.Left (r.2.2.backup, r.2.2.current) ∧ ¬ r.2.2.Left (r.2.2.backup, r.2.2.current))) := by
  dsimp only
  rw [get_round_robin_peer]
  split
  · next hgot =>
    obtain ⟨hmoves, hgets⟩ := get_got hgot
    exact ⟨hmoves.update, fun h => ⟨(hgets (h _)).keep, fun _ => ⟨(hgets (h _)).new, (hgets (h _)).gone⟩⟩⟩
  · split
    · next hbackup =>
      have hleft (x : Bool × Option Nat)
          (hx : PeerData.Left { rrp with backup := true, tried := fun _ => false } x) : rrp.Left x :=
        .inr ⟨hbackup.1, hx.elim (fun hx => hx.1.symm) fun hx => hx.2⟩
      split
      · next hgot =>
        obtain ⟨hmoves, hgets⟩ := get_got hgot
        exact ⟨hmoves.update, fun h => ⟨fun x hx => hleft x ((hgets (h _)).keep x hx),
          fun _ => ⟨hleft _ (hgets (h _)).new, (hgets (h _)).gone⟩⟩⟩
      · exact ⟨fun _ => moves_revive _, fun _ => ⟨hleft, fun h => by cases h⟩⟩
    · exact ⟨Moves.update (moves_revive _), fun _ => ⟨fun _ => id, fun h => by cases h⟩⟩

/-! ## Calls -/

/-- A call moves weight between the peers of a list. -/
theorem moves_apply (u : Upstream) (c : Call) (b : Bool) : Moves (u b).peer (c.apply u b).peer := by
  cases c with
  | get now rrp => exact (asked_get now rrp u).1 b
  | free now rrp failed =>
    rw [Call.apply, free_round_robin_peer]
    cases rrp.current with
    | none => split <;> exact .refl
    | some p =>
      split
      · refine .update ?_ b
        exact moves_modify (fun _ => rfl) fun _ h => h
      · refine .update ?_ b
        refine moves_modify (fun x => ?_) fun x h => h.free failed
        change (x.free now failed).current_weight = x.current_weight
        unfold Peer.free
        split_ifs <;> rfl
  | down backup id value =>
    refine .update ?_ b
    exact moves_modify (fun _ => rfl) fun _ h => h

/-- **Whatever calls reach an upstream, in any order**, the current weights of
its peers and of its backup peers add up to nothing, and each effective weight
stays between nothing and the weight. -/
theorem weights_balanced (servers backup : List Server) (calls : List Call) (b : Bool) :
    let l := (calls.foldl Call.apply (init_round_robin servers backup) b).peer
    (l.map (·.current_weight)).sum = 0 ∧ ∀ peer ∈ l, peer.Sound := by
  have hinit : Moves [] (init_round_robin servers backup b).peer := by
    have hservers (servers : List Server) : Moves [] (servers.map Server.peer) := by
      refine ⟨by simp [comp_def, Server.peer], fun _ x hx => ?_⟩
      obtain ⟨server, -, rfl⟩ := mem_map.mp hx
      exact ⟨Int.natCast_nonneg _, le_rfl⟩
    cases b <;> exact hservers _
  have hrun : ∀ (calls : List Call) (u : Upstream), Moves (u b).peer (calls.foldl Call.apply u b).peer := by
    intro calls
    induction calls with
    | nil => exact fun _ => .refl
    | cons c calls ih => exact fun u => (moves_apply u c b).trans (ih (c.apply u))
  obtain ⟨hsum, hsound⟩ := hinit.trans (hrun calls _)
  exact ⟨hsum, hsound (by simp)⟩

/-! ## A request -/

/-- The peers that a request gets one after the other, with the upstream as the
calls in between have left it. -/
def gets (rrp : PeerData) : List (Int × Upstream) → List (Bool × Option Nat)
  | [] => []
  | (now, u) :: us =>
    let r := get_round_robin_peer now rrp u
    if r.1 then (r.2.2.backup, r.2.2.current) :: gets r.2.2 us else gets r.2.2 us

theorem gets_left (us : List (Int × Upstream)) (h : ∀ x ∈ us, ∀ b, (x.2 b).single = false) (rrp : PeerData) :
    (gets rrp us).Nodup ∧ ∀ x ∈ gets rrp us, rrp.Left x := by
  induction us generalizing rrp with
  | nil => exact ⟨nodup_nil, fun _ h => by cases h⟩
  | cons x us ih =>
    obtain ⟨hsingle, hus⟩ := forall_mem_cons.mp h
    obtain ⟨hkeep, hgot⟩ := (asked_get x.1 rrp x.2).2 hsingle
    obtain ⟨hnodup, hleft⟩ := ih hus (get_round_robin_peer x.1 rrp x.2).2.2
    have hrest := fun y hy => hkeep y (hleft y hy)
    rw [gets]
    split
    · next hok =>
      obtain ⟨hnew, hgone⟩ := hgot hok
      exact ⟨nodup_cons.mpr ⟨fun hmem => hgone (hleft _ hmem), hnodup⟩, forall_mem_cons.mpr ⟨hnew, hrest⟩⟩
    · exact ⟨hnodup, hrest⟩

/-- **A request never gets a peer twice**, whatever other requests and health
checks do to the upstream in between, unless it is the only one. -/
theorem gets_nodup (us : List (Int × Upstream)) (h : ∀ x ∈ us, ∀ b, (x.2 b).single = false) : (gets .init us).Nodup :=
  (gets_left us h .init).1

def heavy : Server := { weight := 2, max_fails := 1, fail_timeout := 10, down := false, weight_pos := by decide }

theorem gets_nodup_heavy : (gets .init (replicate 3 (0, init_round_robin [heavy, heavy] [heavy]))).Nodup :=
  gets_nodup _ fun x hx b => by
    cases eq_of_mem_replicate hx
    cases b <;> rfl

/-! ## Shares -/

open Lib.Rotation

/-- The peers that requests get one after the other, each of them its first. -/
def picks (l : List Peer) : List Int → Option (List Nat × List Peer)
  | [] => some ([], l)
  | now :: nows => do
    let (p, l, _) ← get_peer now .init l
    let (ps, l) ← picks l nows
    some (p :: ps, l)

/-- A peer that is up and has not failed. -/
structure Peer.Ready (peer : Peer) : Prop where
  down : peer.down = false
  fails : peer.fails = 0
  weight : peer.effective_weight = peer.weight

theorem Server.ready {server : Server} (h : server.down = false) : server.peer.Ready := ⟨h, rfl, rfl⟩

theorem Peer.Ready.seen (h : peer.Ready) (now : Int) (i : Nat) :
    skips now (fun _ => false) i peer = false ∧ RoundRobin.seen now (fun _ => false) i peer = peer.weigh := by
  have hskip : skips now (fun _ => false) i peer = false := by
    simp [skips, Peer.failing, h.down, h.fails]
  exact ⟨hskip, if_neg (by rw [hskip]; simp)⟩

theorem Peer.Ready.weigh (h : peer.Ready) :
    peer.weigh = { peer with current_weight := peer.current_weight + peer.weight } := by
  rw [Peer.weigh, if_neg h.weight.ge.not_gt, h.weight]

/-- The first choice of a request among peers that are ready is a turn of the rotation. -/
theorem get_peer_ready {n : Nat} {x : Fin n → Peer} (hn : 0 < n) (hx : ∀ i, (x i).Ready) (now : Int) :
    ∃ x' p r, get_peer now .init (ofFn x) = some (p.val, ofFn x', r) ∧
      (∀ i, (x' i).Ready ∧ (x' i).weight = (x i).weight) ∧
      (∀ i, (x i).current_weight + (x i).weight ≤ (x p).current_weight + (x p).weight) ∧
      ∀ i, (x' i).current_weight = turn (fun i => (x i).weight) (fun i => (x i).current_weight) p i := by
  obtain ⟨hpeers, hsum⟩ := scan_peers now (fun _ => false) (ofFn x) 0 0 none
  obtain ⟨hbest, hover⟩ := scan_best now (fun _ => false) (ofFn x) 0 0 none
  have hweigh (i : Fin n) : (x i).weigh.current_weight = (x i).current_weight + (x i).weight := by rw [(hx i).weigh]
  have hshown (i : Fin n) : Shown now (fun _ => false) 0 (ofFn x) (i.val, (x i).weigh.current_weight) :=
    ⟨i, x i, by simp, ((hx i).seen now _).1, by simp⟩
  have hscan : (scan now (fun _ => false) 0 (ofFn x) 0 none).1 = ofFn fun i => (x i).weigh := by
    refine ext_getElem? fun j => ?_
    rw [hpeers, List.getElem?_ofFn, List.getElem?_ofFn]
    split
    · rw [Option.map_some, ((hx _).seen now _).2]
    · rfl
  have htotal : (scan now (fun _ => false) 0 (ofFn x) 0 none).2.1 = ∑ j, (x j).weight := by
    rw [hscan] at hsum
    simp only [map_ofFn, comp_def, sum_ofFn, hweigh, Finset.sum_add_distrib] at hsum
    omega
  obtain ⟨⟨p, v⟩, hq, -⟩ := hover _ (.inr (hshown ⟨0, hn⟩))
  obtain ⟨j, y, hy, -, heq⟩ := (hbest _ hq).resolve_left (by simp)
  rw [Nat.zero_add, Prod.mk.injEq] at heq
  obtain ⟨rfl, rfl⟩ := heq
  rw [List.getElem?_ofFn] at hy
  split at hy
  · next hp =>
    cases hy
    refine ⟨fun i => if p = i.val then (x i).weigh.charge now (∑ j, (x j).weight) else (x i).weigh, ⟨p, hp⟩,
      { PeerData.init with current := some p, tried := update (fun _ => false) p true }, ?_,
      fun i => ?_, fun i => ?_, fun i => ?_⟩
    · have hres : scan now PeerData.init.tried 0 (ofFn x) 0 none =
          (ofFn fun i => (x i).weigh, ∑ j, (x j).weight, some (p, (x ⟨p, hp⟩).weigh.current_weight)) :=
        Prod.ext hscan (Prod.ext htotal hq)
      rw [get_peer, hres]
      refine congrArg (fun l => some (p, l, _)) (ext_getElem? fun j => ?_)
      rw [getElem?_modify, List.getElem?_ofFn, List.getElem?_ofFn]
      by_cases hj : j < n <;> simp [hj]
    · dsimp only
      rw [(hx i).weigh]
      split <;> exact ⟨⟨(hx i).down, (hx i).fails, (hx i).weight⟩, rfl⟩
    · obtain ⟨q, hq', hle⟩ := hover _ (.inr (hshown i))
      rw [hq] at hq'
      cases hq'
      rwa [hweigh, hweigh] at hle
    · by_cases hi : p = i.val
      · subst hi
        simp only [if_true, Peer.charge, hweigh, turn]
      · simp only [if_neg hi, hweigh, turn, if_neg (fun h : i = ⟨p, hp⟩ => hi (congrArg Fin.val h).symm)]
        omega
  · cases hy

theorem picks_ready {n : Nat} (hn : 0 < n) (nows : List Int) {x : Fin n → Peer} (hx : ∀ i, (x i).Ready) :
    ∃ bs x', picks (ofFn x) nows = some (bs.map Fin.val, ofFn x') ∧ bs.length = nows.length ∧
      Turns (fun i => (x i).weight) (fun i => (x i).current_weight) bs fun i => (x' i).current_weight := by
  induction nows generalizing x with
  | nil => exact ⟨[], x, rfl, rfl, .nil _⟩
  | cons now nows ih =>
    obtain ⟨y, p, r, hget, hy, hlead, hturn⟩ := get_peer_ready hn hx now
    obtain ⟨bs, x', hpicks, hlen, hturns⟩ := ih fun i => (hy i).1
    refine ⟨p :: bs, x', ?_, congrArg (· + 1) hlen, .cons hlead ?_⟩
    · rw [picks, hget]
      simp [hpicks]
    · rwa [funext hturn, funext fun i => (hy i).2] at hturns

/-- **Requests are shared out by weight** among servers that are up and do not
fail: no server is ever a whole request ahead of its share, and after a whole
number of rounds each has had exactly its share. -/
theorem picks_share {n : Nat} (hn : 0 < n) (servers : Fin n → Server) (hup : ∀ i, (servers i).down = false)
    (backup : List Server) (nows : List Int) :
    ∃ ps l, picks (init_round_robin (ofFn servers) backup false).peer nows = some (ps, l) ∧
      ∀ i, ps.count i.val * ∑ j, (servers j).weight < nows.length * (servers i).weight + ∑ j, (servers j).weight ∧
        ∀ k, nows.length = k * ∑ j, (servers j).weight → ps.count i.val = k * (servers i).weight := by
  obtain ⟨bs, x', hpicks, hlen, hturns⟩ := picks_ready hn nows fun i => Server.ready (hup i)
  have hsum : ∑ i, (servers i).peer.weight = (∑ i, (servers i).weight : Nat) := (Nat.cast_sum ..).symm
  have hw (i : Fin n) : 0 ≤ (servers i).peer.weight := Int.natCast_nonneg _
  have hpos : 0 < ∑ i, (servers i).peer.weight :=
    Finset.sum_pos (fun i _ => Int.natCast_pos.mpr (servers i).weight_pos) ⟨⟨0, hn⟩, Finset.mem_univ _⟩
  refine ⟨bs.map Fin.val, ofFn x', by rw [init_round_robin, map_ofFn]; exact hpicks, fun i => ?_⟩
  rw [count_map_of_injective bs _ Fin.val_injective]
  have hcount := hturns.count_lt hw hpos i
  have heq (k : Nat) := hturns.count_eq hw hpos (k := k) (i := i)
  have hweight : (servers i).peer.weight = ((servers i).weight : Int) := rfl
  rw [hsum, hlen, hweight] at hcount
  simp only [hsum, hlen, hweight] at heq
  generalize ∑ i, (servers i).weight = total at *
  exact ⟨by exact_mod_cast hcount, fun k hk => by exact_mod_cast (heq k (by exact_mod_cast hk)).1⟩

theorem picks_share_heavy : ∃ ps l, picks (init_round_robin (ofFn fun _ : Fin 3 => heavy) [] false).peer (replicate 6 0) =
    some (ps, l) ∧ ∀ i : Fin 3, ps.count i.val = 2 := by
  obtain ⟨ps, l, hpicks, hshare⟩ := picks_share (by decide) (fun _ : Fin 3 => heavy) (fun _ => rfl) [] (replicate 6 0)
  exact ⟨ps, l, hpicks, fun i => (hshare i).2 1 rfl⟩

end OpenResty.Nginx.RoundRobin
