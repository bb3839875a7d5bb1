/-
The states that a shared dictionary reaches: tree and queue stay in step as long as no increment
makes a node beside another key of its hash, and times are those of a `uint64_t`.
-/
import OpenResty.NgxLua.ShdictSteps
import OpenResty.Lib.Transition

namespace OpenResty.NgxLua.Shdict

open Lib Lib.Transition Option

variable {N : Type} {z : Zone} {d d' : Shctx N} {sd : Nat} {key : Bytes} {now : Nat} {slab : Slab} {n : Node N}
  {rest : List (Node N)}

/-- Tree and queue are in step, and no time is too large. -/
structure Sane (z : Zone) (d : Shctx N) : Prop where
  rep : Rep z d
  times : ∀ n ∈ d.queue, n.expires < 2 ^ 64

/-- No increment makes a node beside another key of its hash: that one is put into the tree before
its key is written. -/
def Unclashed (z : Zone) (now : Nat) (d : Shctx N) : Op N → Prop
  | .incr key _ init => init ≠ none → Inserts now ((d.scanned z now).entry key) → ¬ (d.scanned z now).Clashes z key
  | _ => True

instance (z : Zone) (now : Nat) (d : Shctx N) : (op : Op N) → Decidable (Unclashed z now d op)
  | .incr _ _ none => .isTrue fun h => absurd rfl h
  | .incr key _ (some i) =>
    decidable_of_iff (Inserts now ((d.scanned z now).entry key) → ¬ (d.scanned z now).Clashes z key)
      ⟨fun h _ => h, fun h => h (some_ne_none i)⟩
  | .store _ _ | .get _ _ | .push _ _ _ | .pop _ _ | .llen _ | .flushAll | .flushExpired _ | .getKeys _ =>
      .isTrue trivial

/-- No step of a run has such an increment. -/
abbrev unclashed (z : Zone) (s : State N) (e : Event N) : Prop := Unclashed z (s.now + e.elapsed) s.dict e.op

/-- A state that a run without such increments reaches from an empty dictionary. -/
def Reached [Add N] (z : Zone) (s : State N) : Prop :=
  ∃ node now events, Guarded (step z) (unclashed z) { dict := .init node, now } events ∧
    run (step z) { dict := .init node, now } events = some s

/-! ## One operation -/

theorem Front.sane (h : Front z d sd n rest) (hn : n.expires < 2 ^ 64) (hrest : ∀ m ∈ rest, m.expires < 2 ^ 64) :
    Sane z d := by
  refine ⟨h.rep, fun m hm => ?_⟩
  rw [h.queue] at hm
  rcases List.mem_cons.mp hm with rfl | hm
  · exact hn
  · exact hrest m hm

theorem Sane.of_dropped {go : Node N → Prop} (h : Sane z d) (hrep : Rep z d')
    (hdropped : Dropped go d.queue d'.queue) :
    Sane z d' :=
  ⟨hrep, fun m hm => h.times m (hdropped.mem hm)⟩

theorem Sane.scanned (h : Sane z d) (now : Nat) : Sane z (d.scanned z now) :=
  h.of_dropped (h.rep.scan now).1 (h.rep.scan now).2

theorem others_times (h : Sane z d) (key : Bytes) : ∀ m ∈ others Node.key key d.queue, m.expires < 2 ^ 64 :=
  fun m hm => h.times m (mem_others.mp hm).1

/-- An entry of the key, and the others as they were. -/
theorem After.sane {short : Prop} {o : Option (Node N)} (h : After z short key d d' o) (hsane : Sane z d)
    (ho : ∀ n, o = some n → n.expires < 2 ^ 64) : Sane z d' :=
  ⟨h.rep, h.forall ho hsane.times⟩

theorem expiresAt_lt (now : Nat) (ttl : Option Nat) : expiresAt now ttl < 2 ^ 64 := by
  cases ttl with
  | none => exact Nat.two_pow_pos 64
  | some ttl => exact Nat.mod_lt _ (Nat.two_pow_pos 64)

theorem store_sane (slab : Slab) (op : StoreOp) (item : Item N) (h : Sane z d) :
    Sane z (d.store z now slab op item).2 := by
  have hscan := h.scanned now
  obtain ⟨o, hafter, hout⟩ := store_outcome slab op item hscan.rep
  refine hafter.sane hscan fun n ho => ?_
  generalize (d.store z now slab op item).1 = r at hout
  cases hout with
  | «exists» => exact hscan.times n (mem_of_entry ho)
  | notFound => exact hscan.times n (mem_of_entry ho)
  | deleted => cases ho
  | stored =>
    cases ho
    exact expiresAt_lt _ _
  | noMemory => cases ho

theorem get_sane (key : Bytes) (get_stale : Bool) (h : Sane z d) : Sane z (d.get z now key get_stale).2 := by
  have hlooked : Sane z (d.lookedUp z now get_stale) := by
    unfold Shctx.lookedUp
    split
    · exact h
    · exact h.scanned now
  obtain ⟨hafter, -⟩ := get_outcome False key hlooked.rep
  exact hafter.sane hlooked fun n ho => hlooked.times n (mem_of_entry ho)

theorem incr_sane [Add N] (slab : Slab) (value : N) {init : Option N} (h : Sane z d)
    (hclear : init ≠ none → Inserts now ((d.scanned z now).entry key) → ¬ (d.scanned z now).Clashes z key) :
    Sane z (d.incr z now slab key value init).2 := by
  have hscan := h.scanned now
  obtain ⟨o, hafter, hout⟩ := incr_outcome slab value hscan.rep hclear
  refine hafter.sane hscan fun n ho => ?_
  generalize (d.incr z now slab key value init).1 = r at hout
  cases hout with
  | notFound => exact hscan.times n (mem_of_entry ho)
  | notNumber hentry =>
    cases ho
    exact hscan.times _ (mem_of_entry hentry)
  | added hentry =>
    have htime := hscan.times _ (mem_of_entry hentry)
    cases ho
    exact htime
  | created =>
    cases ho
    exact Nat.two_pow_pos 64
  | noMemory => cases ho

theorem llen_sane (key : Bytes) (h : Sane z d) : Sane z (d.llen z now key).2 := by
  have hscan := h.scanned now
  obtain ⟨hafter, -⟩ := llen_outcome False key hscan.rep
  exact hafter.sane hscan fun n ho => hscan.times n (mem_of_entry ho)

theorem pushNode_sane (left : Bool) (value : Value N) (elems : List (Value N)) (h : Front z d sd n rest)
    (hn : n.expires < 2 ^ 64) (hrest : ∀ m ∈ rest, m.expires < 2 ^ 64) :
    Sane z (d.pushNode z slab left value sd elems).2 := by
  unfold Shctx.pushNode
  cases slab 1 with
  | none =>
    dsimp only
    split
    · obtain ⟨hrep, hqueue⟩ := h.remove
      exact ⟨hrep, by rwa [hqueue]⟩
    · exact h.sane hn hrest
  | some _ =>
    dsimp only
    rw [h.node]
    exact (h.setNode _ (by rfl) (by rfl)).sane hn hrest

theorem initList_sane (left : Bool) (value : Value N) (h : Sane z d) (hnone : d.entry key = none) :
    Sane z (d.initList z slab key left value).2 := by
  unfold Shctx.initList
  cases slab 0 with
  | none => exact h
  | some _ =>
    dsimp only
    refine pushNode_sane left value [] (h.rep.addNode (by rfl) hnone) ?_ h.times
    exact Nat.two_pow_pos 64

theorem removed_sane (h : Front z d sd n rest) (hrest : ∀ m ∈ rest, m.expires < 2 ^ 64) : Sane z (d.remove z sd) := by
  obtain ⟨hrep, hqueue⟩ := h.remove
  exact ⟨hrep, by rwa [hqueue]⟩

theorem push_sane (slab : Slab) (key : Bytes) (left : Bool) (value : Value N) (h : Sane z d) :
    Sane z (d.push z now slab key left value).2 := by
  have hscan := h.scanned now
  unfold Shctx.push
  unfold Shctx.scanned at hscan
  split
  · exact h
  dsimp only
  generalize (d.expire z now 1).2 = d at hscan ⊢
  have hothers := others_times hscan key
  rcases hscan.rep.lookup now key with ⟨hnone, hrc⟩ | ⟨n, sd, hentry, hfront, ⟨-, hrc⟩ | ⟨-, hrc⟩⟩
  · rw [hrc]
    exact initList_sane left value hscan hnone
  · have hn := hscan.times n (mem_of_entry hentry)
    obtain ⟨-, hqueue⟩ := hfront.remove
    rw [hrc]
    dsimp only
    split
    · refine initList_sane left value (removed_sane hfront hothers) ?_
      rw [Shctx.entry, hqueue]
      exact entry_others_self
    · rw [hfront.node]
      have hput := hfront.setNode { n with expires := 0, data := .list [] } rfl rfl
      exact pushNode_sane left value [] hput.toFront (Nat.two_pow_pos 64) hothers
  · have hn := hscan.times n (mem_of_entry hentry)
    rw [hrc]
    dsimp only
    split
    · exact hfront.sane hn hothers
    · exact pushNode_sane left value _ hfront.toFront hn hothers

theorem pop_sane {r : Popped N} (key : Bytes) (left : Bool) (h : Sane z d)
    (hpop : d.pop z now key left = some (r, d')) :
    Sane z d' := by
  have hscan := h.scanned now
  unfold Shctx.pop at hpop
  unfold Shctx.scanned at hscan
  dsimp only at hpop
  generalize (d.expire z now 1).2 = d at hscan hpop
  have hothers := others_times hscan key
  rcases hscan.rep.lookup now key with ⟨-, hrc⟩ | ⟨n, sd, hentry, hfront, ⟨-, hrc⟩ | ⟨-, hrc⟩⟩
  · rw [hrc] at hpop
    cases hpop
    exact hscan
  · rw [hrc] at hpop
    cases hpop
    exact hfront.sane (hscan.times n (mem_of_entry hentry)) hothers
  · have hn := hscan.times n (mem_of_entry hentry)
    have hsame := hfront.sane hn hothers
    rw [hrc] at hpop
    dsimp only at hpop
    rw [hfront.node] at hpop
    split at hpop
    · cases hpop
      exact hsame
    · split at hpop
      · cases hpop
        exact hsame
      · split at hpop
        · cases hpop
        · split at hpop
          · cases hpop
            exact hsame
          · split at hpop
            · cases hpop
              exact removed_sane hfront hothers
            · cases hpop
              exact (hfront.toFront.setNode _ (by rfl) (by rfl)).sane hn hothers

theorem flushAll_sane (now : Nat) (h : Sane z d) : Sane z (d.flushAll z now) := by
  obtain ⟨hrep, hdropped⟩ := flushAll_outcome now h.rep
  refine ⟨hrep, fun m hm => ?_⟩
  obtain ⟨m', -, rfl⟩ := List.mem_map.mp (hdropped.mem hm)
  exact Nat.one_lt_two_pow (by decide)

/-! ## Runs -/

theorem run_sane [Add N] {op : Op N} {r : Result N} (h : Sane z d) (hclear : Unclashed z now d op)
    (hrun : op.run z now slab d = some (r, d')) : Sane z d' := by
  cases op with
  | store op item =>
    cases hrun
    exact store_sane slab op item h
  | get key get_stale =>
    cases hrun
    exact get_sane key get_stale h
  | incr key value init =>
    cases hrun
    exact incr_sane slab value h hclear
  | push key left value =>
    cases hrun
    exact push_sane slab key left value h
  | pop key left =>
    obtain ⟨⟨r', d''⟩, hpop, heq⟩ := map_eq_some_iff.mp hrun
    cases heq
    exact pop_sane key left h hpop
  | llen key =>
    cases hrun
    exact llen_sane key h
  | flushAll =>
    cases hrun
    exact flushAll_sane now h
  | flushExpired attempts =>
    cases hrun
    have hflushed := flushExpired_outcome now h.rep attempts
    exact ⟨hflushed.rep, fun m hm => h.times m (hflushed.kept m hm)⟩
  | getKeys attempts =>
    cases hrun
    exact h

theorem step_sane [Add N] (s : State N) (e : Event N) (s' : State N) (h : Sane z s.dict)
    (hstep : step z s e = some s')
    (hclear : unclashed z s e) : Sane z s'.dict := by
  obtain ⟨⟨r, s''⟩, hresult, rfl⟩ := map_eq_some_iff.mp hstep
  obtain ⟨⟨r', d'⟩, hrun, heq⟩ := map_eq_some_iff.mp hresult
  cases heq
  exact run_sane h hclear hrun

/-- **Tree and queue are in step in every state reached**, and no time is too large. -/
theorem Reached.sane [Add N] {s : State N} (h : Reached z s) : Sane z s.dict := by
  obtain ⟨node, now, events, hclear, hrun⟩ := h
  have hinit : Sane z (Shctx.init node) := ⟨rep_init z node, fun n hn => by cases hn⟩
  have halways : Always (step z) (fun s => Sane z s.dict) { dict := .init node, now } events :=
    always_of_along step_sane hinit hclear.along
  exact halways.reached hrun

/-- Three keys are set for five milliseconds. -/
def threeShort : List (Event Int) :=
  [[97], [98], [99]].map fun key =>
    { elapsed := 0, slab := fun _ => some fun _ => 0
      op := .store { add := false, replace := false, safe_store := false }
        { key, value := some (.boolean true), ttl := some 5, user_flags := 0 } }

theorem reached_threeShort : ∃ s, run (step plainZone) { dict := .init fun _ => blankNode, now := 100 } threeShort =
    some s ∧ Reached plainZone s := by
  have hsome : (run (step plainZone) { dict := .init fun _ => blankNode, now := 100 } threeShort).isSome := by
    decide +kernel
  obtain ⟨s, hrun⟩ := isSome_iff_exists.mp hsome
  exact ⟨s, hrun, fun _ => blankNode, 100, threeShort, by decide +kernel, hrun⟩

end OpenResty.NgxLua.Shdict
