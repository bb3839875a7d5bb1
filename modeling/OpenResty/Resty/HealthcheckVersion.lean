/-
The workers that check one upstream: how a change of a peer in one of them
comes to the others by the version.

A worker that publishes takes the version that it makes for its own, also when
others have published since it last looked.
-/
import OpenResty.Resty.Healthcheck

namespace OpenResty.Resty.Healthcheck

open Lib.Transition Function Option Nat List

variable {ι P : Type} [DecidableEq ι] [DecidableEq P]

/-! ## Steps -/

/-- Where a worker is, between two accesses to the dictionary. -/
inductive Pc (P : Type)
  | idle
  /-- a check, with what it read of its count -/
  | counting (side : Side) (p : P) (got : Option Nat)
  /-- a check that is the first of its kind -/
  | first (side : Side) (p : P)
  /-- and with what it read of the other count -/
  | resetting (side : Side) (p : P) (got : Option Nat)
  | turning (side : Side) (p : P) (n : Nat)
  /-- in `upgrade_peers_version`, with the peers to come -/
  | upgrading (ver : Nat) (peers : List P)
  | publishing

structure Worker (P : Type) where
  ctx : Ctx P
  pc : Pc P

structure System (ι P : Type) where
  dict : Dict P
  worker : ι → Worker P

/-- The lock of a cycle ends with the interval, and a light thread may outlast
its cycle, so a worker begins its checks in any order and at any time. -/
inductive Event (ι P : Type)
  /-- `check_peers_updates` -/
  | update (w : ι)
  | check (w : ι) (side : Side) (p : P)
  /-- `do_check`, when there is a new version -/
  | publish (w : ι)
  /-- the next access to the dictionary -/
  | next (w : ι)

/-- The version that all have at the start is 0. -/
def Dict.version (dict : Dict P) : Nat := dict.v.getD 0

def System.put (s : System ι P) (w : ι) (worker : Worker P) (dict : Dict P) : System ι P :=
  { dict, worker := update s.worker w worker }

/-- The next access of a worker -/
def advance (cfg : Config P) (dict : Dict P) (ctx : Ctx P) : Pc P → Option (Worker P × Dict P)
  | .idle => none
  | .counting side p got =>
    let (n, dict) := bump dict side p got
    some ({ ctx, pc := if n = 1 then .first side p else .turning side p n }, dict)
  | .first side p => some ({ ctx, pc := .resetting side p (dict.streak side.other p) }, dict)
  | .resetting side p got => some ({ ctx, pc := .turning side p 1 }, reset dict side p got)
  | .turning side p n =>
    let (ctx, dict) := turn cfg ctx dict side p n
    some ({ ctx, pc := .idle }, dict)
  | .upgrading ver [] => some ({ ctx := { ctx with version := ver }, pc := .idle }, dict)
  | .upgrading ver (p :: peers) =>
    some ({ ctx := { ctx with down := update ctx.down p (dict.d p) }, pc := .upgrading ver peers }, dict)
  | .publishing =>
    let new_ver := dict.version + 1
    some ({ ctx := { ctx with version := new_ver, new_version := false }, pc := .idle },
      { dict with v := some new_ver })

def step (cfg : Config P) (s : System ι P) : Event ι P → Option (System ι P)
  | .update w =>
    match s.worker w with
    | { ctx, pc := .idle } =>
      match s.dict.v with
      | none =>
        some (s.put w { ctx := { ctx with new_version := ctx.new_version || decide (0 < ctx.version) }, pc := .idle }
          s.dict)
      | some ver => some (s.put w { ctx, pc := if ctx.version < ver then .upgrading ver cfg.peers else .idle } s.dict)
    | _ => none
  | .check w side p =>
    match s.worker w with
    | { ctx, pc := .idle } =>
      if p ∈ cfg.peers then some (s.put w { ctx, pc := .counting side p (s.dict.streak side p) } s.dict) else none
    | _ => none
  | .publish w =>
    match s.worker w with
    | { ctx, pc := .idle } =>
      if ctx.new_version then some (s.put w { ctx, pc := .publishing }
        { s.dict with v := some s.dict.version }) else none
    | _ => none
  | .next w => (advance cfg s.dict (s.worker w).ctx (s.worker w).pc).map fun (worker, dict) => s.put w worker dict

variable {cfg : Config P} {s s' : System ι P} {w w' : ι} {p : P} {e : Event ι P} {es : List (Event ι P)}

variable {worker : Worker P} {dict : Dict P}

omit [DecidableEq P] in
@[simp] theorem put_self :
    (s.put w worker dict).worker w = worker := update_self ..

omit [DecidableEq P] in
@[simp] theorem put_ne (h : w' ≠ w) : (s.put w worker dict).worker w' = s.worker w' :=
  update_of_ne h ..

/-- Under which version the last change of each peer was published, and who made
it. -/
structure Ledger (ι P : Type) where
  stamp : P → Option Nat
  writer : P → Option ι

/-- The stamps when `w` has published what it owes under the version `n`. -/
def Ledger.publish (l : Ledger ι P) (w : ι) (n : Nat) (p : P) : Option Nat :=
  if l.stamp p = none ∧ l.writer p = some w then some n else l.stamp p

def Ledger.enter (l : Ledger ι P) (s s' : System ι P) : Event ι P → Ledger ι P
  | .next w =>
    match (s.worker w).pc with
    | .turning _ p _ =>
      if (s'.worker w).ctx.down p = (s.worker w).ctx.down p then l
      else { stamp := update l.stamp p none, writer := update l.writer p (some w) }
    | .publishing =>
      { l with stamp := l.publish w s'.dict.version }
    | _ => l
  | _ => l

/-- A step, with its entry. -/
def enterStep (cfg : Config P) (x : System ι P × Ledger ι P) (e : Event ι P) : Option (System ι P × Ledger ι P) :=
  (step cfg x.1 e).map fun s => (s, x.2.enter x.1 s e)

/-- Workers that begin with the peers that `down` says, on a dictionary that may
have a version and states. -/
def start (dict : Dict P) (down : ι → P → Bool) : System ι P × Ledger ι P :=
  ({ dict, worker := fun w => { ctx := { down := down w, version := 0, new_version := false }, pc := .idle } },
    { stamp := fun _ => some dict.version, writer := fun _ => none })

/-- A worker that has a version has the states that were published under it. -/
def Applied (cfg : Config P) (x : System ι P × Ledger ι P) : Prop :=
  ∀ w, ∀ p ∈ cfg.peers, ∀ n, x.2.stamp p = some n → n ≤ (x.1.worker w).ctx.version →
    (x.1.worker w).ctx.down p = x.1.dict.d p

/-- No worker has a change to publish, and all have the current version. -/
def Quiet (s : System ι P) : Prop :=
  ∀ w, (s.worker w).pc = .idle ∧ (s.worker w).ctx.new_version = false ∧ (s.worker w).ctx.version = s.dict.version

def Agreed (cfg : Config P) (s : System ι P) : Prop := ∀ w, ∀ p ∈ cfg.peers, (s.worker w).ctx.down p = s.dict.d p

/-- What the version is for. -/
def Right (cfg : Config P) (x : System ι P × Ledger ι P) : Prop := Applied cfg x ∧ (Quiet x.1 → Agreed cfg x.1)

/-- A worker that publishes has the states that others have published. -/
def Careful (cfg : Config P) (x : System ι P × Ledger ι P) : Event ι P → Prop
  | .next w =>
    match (x.1.worker w).pc with
    | .publishing => ∀ p ∈ cfg.peers, (x.2.stamp p).isSome → (x.1.worker w).ctx.down p = x.1.dict.d p
    | _ => True
  | _ => True

/-- What a worker has read is of the version that it has, or will have. -/
structure Fits (cfg : Config P) (dict : Dict P) (stamp : P → Option Nat) (worker : Worker P) : Prop where
  version : worker.ctx.version ≤ dict.version
  upgrading : ∀ ver peers, worker.pc = .upgrading ver peers → ver ≤ dict.version ∧
    ∀ p ∈ cfg.peers, p ∉ peers → ∀ n, stamp p = some n → n ≤ ver → worker.ctx.down p = dict.d p
  applied : ∀ p ∈ cfg.peers, ∀ n, stamp p = some n → n ≤ worker.ctx.version → worker.ctx.down p = dict.d p

/-- The worker has a change of the peer to publish. -/
def Owes (dict : Dict P) (p : P) (worker : Worker P) : Prop :=
  worker.ctx.new_version = true ∧ worker.ctx.down p = dict.d p

structure Inv (cfg : Config P) (x : System ι P × Ledger ι P) : Prop where
  stamped : ∀ p n, x.2.stamp p = some n → n ≤ x.1.dict.version
  fits : ∀ w, Fits cfg x.1.dict x.2.stamp (x.1.worker w)
  pending : ∀ p, x.2.stamp p = none → ∃ w, x.2.writer p = some w ∧ Owes x.1.dict p (x.1.worker w)

/-! ## The kinds of steps -/

/-- What a step does to the flags, the states and the versions. -/
inductive Move (cfg : Config P) (x : System ι P × Ledger ι P) (e : Event ι P) : System ι P × Ledger ι P → Prop
  | plain (w : ι) (worker : Worker P) (dict : Dict P) (hok : Careful cfg x e)
    (hd : dict.d = x.1.dict.d ∧ dict.version = x.1.dict.version)
    (hctx : worker.ctx.down = (x.1.worker w).ctx.down ∧ worker.ctx.version = (x.1.worker w).ctx.version)
    (hnew : (x.1.worker w).ctx.new_version = true → worker.ctx.new_version = true)
    (hpc : ∀ ver peers, worker.pc = .upgrading ver peers → ver ≤ x.1.dict.version ∧ peers = cfg.peers) :
    Move cfg x e (x.1.put w worker dict, x.2)
  | turned (w : ι) (p : P) (value : Bool) (hok : Careful cfg x e) :
    Move cfg x e
      (x.1.put w
        { ctx := (set_peer_down_globally (x.1.worker w).ctx x.1.dict p value).1, pc := .idle }
        (set_peer_down_globally (x.1.worker w).ctx x.1.dict p value).2,
        { stamp := update x.2.stamp p none, writer := update x.2.writer p (some w) })
  | read (w : ι) (ver : Nat) (p : P) (peers : List P) (hok : Careful cfg x e)
    (hpc : (x.1.worker w).pc = .upgrading ver (p :: peers)) :
    Move cfg x e
      (x.1.put w
        { ctx := { (x.1.worker w).ctx with down := update (x.1.worker w).ctx.down p (x.1.dict.d p) }
          pc := .upgrading ver peers } x.1.dict, x.2)
  | finished (w : ι) (ver : Nat) (hok : Careful cfg x e) (hpc : (x.1.worker w).pc = .upgrading ver []) :
    Move cfg x e (x.1.put w { ctx := { (x.1.worker w).ctx with version := ver }, pc := .idle } x.1.dict, x.2)
  | published (w : ι) (he : e = .next w) (hpc : (x.1.worker w).pc = .publishing) :
    Move cfg x e
      (x.1.put w
        { ctx := { (x.1.worker w).ctx with version := x.1.dict.version + 1, new_version := false }, pc := .idle }
        { x.1.dict with v := some (x.1.dict.version + 1) },
        { x.2 with stamp := x.2.publish w (x.1.dict.version + 1) })

variable {x x' : System ι P × Ledger ι P}

/-- The only branch of a check that another worker sees is a turn. -/
theorem turn_cases (cfg : Config P) (ctx : Ctx P) (dict : Dict P) (side : Side) (p : P) (n : Nat) :
    turn cfg ctx dict side p n = (ctx, dict) ∨
      ∃ value, ctx.down p ≠ value ∧ turn cfg ctx dict side p n = set_peer_down_globally ctx dict p value := by
  unfold turn
  cases side with
  | fail =>
    dsimp only
    split
    · next h => exact .inr ⟨true, by rw [h.1]; exact Bool.noConfusion, rfl⟩
    · exact .inl rfl
  | ok =>
    dsimp only
    split
    · next h => exact .inr ⟨false, by rw [h.1]; exact Bool.noConfusion, rfl⟩
    · exact .inl rfl

theorem bump_states (dict : Dict P) (side : Side) (p : P) (got : Option Nat) :
    (bump dict side p got).2.d = dict.d ∧ (bump dict side p got).2.version = dict.version := by
  cases got <;> exact ⟨rfl, rfl⟩

theorem reset_states (dict : Dict P) (side : Side) (p : P) (got : Option Nat) :
    (reset dict side p got).d = dict.d ∧ (reset dict side p got).version = dict.version := by
  unfold reset
  split <;> exact ⟨rfl, rfl⟩

theorem move_update {w : ι} (h : enterStep cfg x (.update w) = some x') : Move cfg x (.update w) x' := by
  obtain ⟨s', hs, rfl⟩ := map_eq_some_iff.mp h
  cases hw : x.1.worker w with
  | mk ctx pc =>
    cases pc with
    | idle =>
      simp only [step, hw] at hs
      split at hs
      · cases hs
        refine .plain w _ _ trivial ⟨rfl, rfl⟩ ⟨by rw [hw], by rw [hw]⟩ (fun hnew => ?_) fun _ _ hpc => (by cases hpc)
        rw [hw] at hnew
        simp [show ctx.new_version = true from hnew]
      · next ver hver =>
        cases hs
        refine .plain w _ _ trivial ⟨rfl, rfl⟩ ⟨by rw [hw], by rw [hw]⟩ (fun hnew => ?_) fun ver' peers hpc => ?_
        · rw [hw] at hnew
          exact hnew
        · dsimp only at hpc
          split at hpc
          · cases hpc
            exact ⟨by rw [Dict.version, hver]; exact Nat.le_refl _, rfl⟩
          · cases hpc
    | _ => simp [step, hw] at hs

theorem move_check {w : ι} {side : Side} (h : enterStep cfg x (.check w side p) = some x') :
    Move cfg x (.check w side p) x' := by
  obtain ⟨s', hs, rfl⟩ := map_eq_some_iff.mp h
  cases hw : x.1.worker w with
  | mk ctx pc =>
    cases pc with
    | idle =>
      simp only [step, hw] at hs
      split at hs
      · cases hs
        refine .plain w _ _ trivial ⟨rfl, rfl⟩ ⟨by rw [hw], by rw [hw]⟩ (fun hnew => ?_) fun _ _ hpc => (by cases hpc)
        rw [hw] at hnew
        exact hnew
      · cases hs
    | _ => simp [step, hw] at hs

theorem move_publish {w : ι} (h : enterStep cfg x (.publish w) = some x') : Move cfg x (.publish w) x' := by
  obtain ⟨s', hs, rfl⟩ := map_eq_some_iff.mp h
  cases hw : x.1.worker w with
  | mk ctx pc =>
    cases pc with
    | idle =>
      simp only [step, hw] at hs
      split at hs
      · cases hs
        refine .plain w _ _ trivial ⟨rfl, rfl⟩ ⟨by rw [hw], by rw [hw]⟩ (fun hnew => ?_) fun _ _ hpc => (by cases hpc)
        rw [hw] at hnew
        exact hnew
      · cases hs
    | _ => simp [step, hw] at hs

omit [DecidableEq ι] [DecidableEq P] in
theorem careful_next {w : ι} (h : (x.1.worker w).pc ≠ .publishing) : Careful cfg x (.next w) := by
  simp only [Careful]

theorem enter_next {w : ι} (hturning : ∀ side p n, (x.1.worker w).pc ≠ .turning side p n)
    (hpublishing : (x.1.worker w).pc ≠ .publishing) : x.2.enter x.1 s' (.next w) = x.2 := by
  simp only [Ledger.enter]

theorem move_next {w : ι} (h : enterStep cfg x (.next w) = some x') : Move cfg x (.next w) x' := by
  obtain ⟨s', hs, rfl⟩ := map_eq_some_iff.mp h
  obtain ⟨⟨worker, dict⟩, hadvance, rfl⟩ := map_eq_some_iff.mp hs
  cases hpc : (x.1.worker w).pc with
  | idle =>
    rw [hpc] at hadvance
    cases hadvance
  | counting side p got =>
    rw [enter_next (by simp [hpc]) (by simp [hpc])]
    rw [hpc] at hadvance
    cases hadvance
    refine .plain w _ _ (careful_next (by simp [hpc])) (bump_states ..) ⟨rfl, rfl⟩ id fun ver peers hpc => ?_
    have hcounted : ∀ n, (if n = 1 then Pc.first side p else .turning side p n) ≠ .upgrading ver peers := fun n => by
      split <;> exact fun h => by cases h
    exact absurd hpc (hcounted _)
  | first side p =>
    rw [enter_next (by simp [hpc]) (by simp [hpc])]
    rw [hpc] at hadvance
    cases hadvance
    exact .plain w _ _ (careful_next (by simp [hpc])) ⟨rfl, rfl⟩ ⟨rfl, rfl⟩ id fun _ _ hpc => (by cases hpc)
  | resetting side p got =>
    rw [enter_next (by simp [hpc]) (by simp [hpc])]
    rw [hpc] at hadvance
    cases hadvance
    exact .plain w _ _ (careful_next (by simp [hpc])) (reset_states ..) ⟨rfl, rfl⟩ id fun _ _ hpc => (by cases hpc)
  | turning side p n =>
    rw [hpc] at hadvance
    have hentry : x.2.enter x.1 (x.1.put w worker dict) (.next w) =
        if worker.ctx.down p = (x.1.worker w).ctx.down p then x.2
        else { stamp := update x.2.stamp p none, writer := update x.2.writer p (some w) } := by
      simp only [Ledger.enter, hpc, put_self]
    rw [hentry]
    simp only [advance] at hadvance
    rcases turn_cases cfg (x.1.worker w).ctx x.1.dict side p n with hturn | ⟨value, hne, hturn⟩
    · rw [hturn] at hadvance
      cases hadvance
      rw [if_pos rfl]
      exact .plain w _ _ (careful_next (by simp [hpc])) ⟨rfl, rfl⟩ ⟨rfl, rfl⟩ id fun _ _ hpc => (by cases hpc)
    · rw [hturn] at hadvance
      cases hadvance
      rw [if_neg]
      · exact .turned w p value (careful_next (by simp [hpc]))
      · simpa [set_peer_down_globally] using hne.symm
  | upgrading ver peers =>
    rw [enter_next (by simp [hpc]) (by simp [hpc])]
    rw [hpc] at hadvance
    cases peers with
    | nil =>
      cases hadvance
      exact .finished w ver (careful_next (by simp [hpc])) hpc
    | cons p peers =>
      cases hadvance
      exact .read w ver p peers (careful_next (by simp [hpc])) hpc
  | publishing =>
    rw [hpc] at hadvance
    cases hadvance
    have hentry : x.2.enter x.1 (x.1.put w
      { ctx := { (x.1.worker w).ctx with version := x.1.dict.version + 1, new_version := false }, pc := .idle }
        { x.1.dict with v := some (x.1.dict.version + 1) }) (.next w) =
          { x.2 with stamp := x.2.publish w (x.1.dict.version + 1) } := by
      simp only [Ledger.enter, hpc]
      rfl
    rw [hentry]
    exact .published w rfl hpc

theorem move_of_step (h : enterStep cfg x e = some x') : Move cfg x e x' := by
  cases e with
  | update w => exact move_update h
  | check w side p => exact move_check h
  | publish w => exact move_publish h
  | next w => exact move_next h

/-! ## What the moves keep -/

omit [DecidableEq P] in
theorem put_cases (Q : Worker P → Prop) (hself : Q worker)
    (hothers : ∀ w', w' ≠ w → Q (s.worker w')) (w' : ι) : Q ((s.put w worker dict).worker w') := by
  by_cases hw : w' = w
  · rw [hw, put_self]
    exact hself
  · rw [put_ne hw]
    exact hothers w' hw

omit [DecidableEq P] in
theorem Fits.congr {dict' : Dict P} {stamp : P → Option Nat} (h : Fits cfg dict stamp worker)
    (hd : dict'.d = dict.d ∧ dict'.version = dict.version) : Fits cfg dict' stamp worker := by
  obtain ⟨hversion, hupgrading, happlied⟩ := h
  rw [← hd.1, ← hd.2] at *
  exact ⟨hversion, hupgrading, happlied⟩

omit [DecidableEq P] in
theorem Inv.plain (h : Inv cfg x)
    (hd : dict.d = x.1.dict.d ∧ dict.version = x.1.dict.version)
    (hctx : worker.ctx.down = (x.1.worker w).ctx.down ∧ worker.ctx.version = (x.1.worker w).ctx.version)
    (hnew : (x.1.worker w).ctx.new_version = true → worker.ctx.new_version = true)
    (hpc : ∀ ver peers, worker.pc = .upgrading ver peers → ver ≤ x.1.dict.version ∧ peers = cfg.peers) :
    Inv cfg (x.1.put w worker dict, x.2) := by
  refine ⟨fun p n hn => Nat.le_trans (h.stamped p n hn) (Nat.le_of_eq hd.2.symm), ?_, fun p hp => ?_⟩
  · refine put_cases (Fits cfg dict x.2.stamp) (Fits.congr ⟨?_, fun ver peers hver => ?_, ?_⟩ hd) fun w' _ =>
      (h.fits w').congr hd
    · rw [hctx.2]
      exact (h.fits w).version
    · obtain ⟨hle, rfl⟩ := hpc ver peers hver
      exact ⟨hle, fun p hp hnot => absurd hp hnot⟩
    · rw [hctx.1, hctx.2]
      exact (h.fits w).applied
  · obtain ⟨w', hwriter, hnew', hdown⟩ := h.pending p hp
    refine ⟨w', hwriter, ?_⟩
    unfold Owes
    rw [show (x.1.put w worker dict).dict = dict from rfl, hd.1]
    by_cases hw : w' = w
    · subst hw
      rw [put_self, hctx.1]
      exact ⟨hnew hnew', hdown⟩
    · rw [put_ne hw]
      exact ⟨hnew', hdown⟩

theorem Fits.turned {stamp : P → Option Nat}
    (h : Fits cfg dict stamp worker) (value : Bool) :
    Fits cfg (dict.setDown p value) (update stamp p none) worker := by
  have hother : ∀ p' n, update stamp p none p' = some n → stamp p' = some n ∧
    (dict.setDown p value).d p' = dict.d p' :=
    fun p' n hn => by
      by_cases hp : p' = p
      · rw [hp, update_self] at hn
        cases hn
      · rw [update_of_ne hp] at hn
        exact ⟨hn, update_of_ne hp ..⟩
  refine ⟨h.version, fun ver peers hpc => ⟨(h.upgrading ver peers hpc).1, fun p' hp' hnot n hn hle => ?_⟩,
    fun p' hp' n hn hle => ?_⟩
  · rw [(hother p' n hn).2]
    exact (h.upgrading ver peers hpc).2 p' hp' hnot n (hother p' n hn).1 hle
  · rw [(hother p' n hn).2]
    exact h.applied p' hp' n (hother p' n hn).1 hle

/-- A change is owed by the worker that makes it. -/
theorem Inv.turned (h : Inv cfg x) (w : ι) (p : P) (value : Bool) :
    Inv cfg
      (x.1.put w { ctx := (set_peer_down_globally (x.1.worker w).ctx x.1.dict p value).1, pc := .idle }
        (set_peer_down_globally (x.1.worker w).ctx x.1.dict p value).2,
        { stamp := update x.2.stamp p none, writer := update x.2.writer p (some w) }) := by
  refine ⟨fun p' n hn => ?_, ?_, fun p' hp' => ?_⟩
  · by_cases hp : p' = p
    · subst hp
      cases (update_self p' none x.2.stamp).symm.trans hn
    · exact h.stamped p' n ((update_of_ne hp ..).symm.trans hn)
  · refine put_cases (Fits cfg (x.1.dict.setDown p value) (update x.2.stamp p none)) ?_ fun w' _ =>
      (h.fits w').turned value
    obtain ⟨hversion, -, happlied⟩ := (h.fits w).turned (p := p) value
    refine ⟨hversion, fun _ _ hpc => (by cases hpc), fun p' hp' n hn hle => ?_⟩
    have hne : p' ≠ p := fun hp => by
      subst hp
      cases (update_self p' none x.2.stamp).symm.trans hn
    exact (update_of_ne hne ..).trans (happlied p' hp' n hn hle)
  · by_cases hp : p' = p
    · subst hp
      refine ⟨w, update_self .., ?_⟩
      unfold Owes
      rw [put_self]
      refine ⟨rfl, ?_⟩
      change update (x.1.worker w).ctx.down p' value p' = update x.1.dict.d p' value p'
      rw [update_self, update_self]
    · obtain ⟨w', hwriter, hnew, hdown⟩ := h.pending p' ((update_of_ne hp ..).symm.trans hp')
      refine ⟨w', (update_of_ne hp ..).trans hwriter, ?_⟩
      unfold Owes
      rw [show (x.1.put w _ (set_peer_down_globally (x.1.worker w).ctx x.1.dict p value).2).dict.d p' =
        x.1.dict.d p' from
        update_of_ne hp ..]
      by_cases hw : w' = w
      · subst hw
        rw [put_self]
        exact ⟨rfl, (update_of_ne hp ..).trans hdown⟩
      · rw [put_ne hw]
        exact ⟨hnew, hdown⟩

/-- A worker that reads the state of a peer has the last one. -/
theorem Inv.read {ver : Nat} {peers : List P} (h : Inv cfg x)
    (hpc : (x.1.worker w).pc = .upgrading ver (p :: peers)) :
    Inv cfg
      (x.1.put w
        { ctx := { (x.1.worker w).ctx with down := update (x.1.worker w).ctx.down p (x.1.dict.d p) }
          pc := .upgrading ver peers } x.1.dict, x.2) := by
  have hread : ∀ p', (x.1.worker w).ctx.down p' = x.1.dict.d p' →
      update (x.1.worker w).ctx.down p (x.1.dict.d p) p' = x.1.dict.d p' := fun p' hdown => by
    by_cases hp : p' = p
    · rw [hp, update_self]
    · rw [update_of_ne hp, hdown]
  refine ⟨h.stamped, ?_, fun p' hp' => ?_⟩
  · refine put_cases (Fits cfg x.1.dict x.2.stamp) ?_ fun w' _ => h.fits w'
    obtain ⟨hversion, hupgrading, happlied⟩ := h.fits w
    obtain ⟨hle, hrest⟩ := hupgrading ver (p :: peers) hpc
    refine ⟨hversion, fun ver' peers' heq => ?_, fun p' hp' n hn hle' => hread p' (happlied p' hp' n hn hle')⟩
    cases heq
    refine ⟨hle, fun p' hp' hnot n hn hle' => ?_⟩
    by_cases hp : p' = p
    · rw [hp]
      exact update_self ..
    · exact hread p' (hrest p' hp' (not_mem_cons_of_ne_of_not_mem hp hnot) n hn hle')
  · obtain ⟨w', hwriter, howes⟩ := h.pending p' hp'
    refine ⟨w', hwriter, ?_⟩
    by_cases hw : w' = w
    · subst hw
      rw [put_self]
      exact ⟨howes.1, hread p' howes.2⟩
    · rw [put_ne hw]
      exact howes

omit [DecidableEq P] in
/-- A worker has read all peers before it takes the version. -/
theorem Inv.finished {ver : Nat} (h : Inv cfg x) (hpc : (x.1.worker w).pc = .upgrading ver []) :
    Inv cfg (x.1.put w { ctx := { (x.1.worker w).ctx with version := ver }, pc := .idle } x.1.dict, x.2) := by
  refine ⟨h.stamped, ?_, fun p hp => ?_⟩
  · refine put_cases (Fits cfg x.1.dict x.2.stamp) ?_ fun w' _ => h.fits w'
    obtain ⟨hle, hread⟩ := (h.fits w).upgrading ver [] hpc
    exact ⟨hle, fun _ _ heq => (by cases heq), fun p hp => hread p hp not_mem_nil⟩
  · obtain ⟨w', hwriter, howes⟩ := h.pending p hp
    refine ⟨w', hwriter, ?_⟩
    by_cases hw : w' = w
    · subst hw
      rw [put_self]
      exact howes
    · rw [put_ne hw]
      exact howes

omit [DecidableEq P] in
theorem publish_some {l : Ledger ι P} {n m : Nat} (h : l.publish w n p = some m) :
    (l.stamp p = none ∧ l.writer p = some w ∧ m = n) ∨ l.stamp p = some m := by
  unfold Ledger.publish at h
  split at h
  · next hw =>
    cases h
    exact .inl ⟨hw.1, hw.2, rfl⟩
  · exact .inr h

omit [DecidableEq P] in
theorem publish_none {l : Ledger ι P} {n : Nat} (h : l.publish w n p = none) :
    l.stamp p = none ∧ l.writer p ≠ some w := by
  unfold Ledger.publish at h
  split at h
  · cases h
  · next hw => exact ⟨h, fun hwriter => hw ⟨h, hwriter⟩⟩

omit [DecidableEq P] in
/-- The others have not the new version yet, and the worker that makes it has
all that it stands for. -/
theorem Inv.published (h : Inv cfg x)
    (hcareful : ∀ p ∈ cfg.peers, (x.2.stamp p).isSome → (x.1.worker w).ctx.down p = x.1.dict.d p) :
    Inv cfg
      (x.1.put w
        { ctx := { (x.1.worker w).ctx with version := x.1.dict.version + 1, new_version := false }, pc := .idle }
        { x.1.dict with v := some (x.1.dict.version + 1) },
        { x.2 with stamp := x.2.publish w (x.1.dict.version + 1) }) := by
  refine ⟨fun p n hn => ?_, ?_, fun p hp => ?_⟩
  · change n ≤ x.1.dict.version + 1
    rcases publish_some hn with ⟨-, -, rfl⟩ | hn
    · exact Nat.le_refl _
    · exact le_succ_of_le (h.stamped p n hn)
  · refine put_cases (Fits cfg { x.1.dict with v := some (x.1.dict.version + 1) }
      (x.2.publish w (x.1.dict.version + 1))) ?_ fun w' _ => ?_
    · refine ⟨Nat.le_refl _, fun _ _ heq => (by cases heq), fun p hp n hn _ => ?_⟩
      rcases publish_some hn with ⟨hnone, hwriter, -⟩ | hn
      · obtain ⟨w', hwriter', howes⟩ := h.pending p hnone
        cases hwriter.symm.trans hwriter'
        exact howes.2
      · exact hcareful p hp (by rw [hn]; rfl)
    · obtain ⟨hversion, hupgrading, happlied⟩ := h.fits w'
      have hold : ∀ p n, x.2.publish w (x.1.dict.version + 1) p = some n → n ≤ x.1.dict.version →
        x.2.stamp p = some n :=
        fun p n hn hle => by
          rcases publish_some hn with ⟨-, -, rfl⟩ | hn
          · omega
          · exact hn
      refine ⟨le_succ_of_le hversion, fun ver peers heq => ?_, fun p hp n hn hle => ?_⟩
      · obtain ⟨hle, hread⟩ := hupgrading ver peers heq
        exact ⟨le_succ_of_le hle, fun p hp hnot n hn hn' =>
          hread p hp hnot n (hold p n hn (Nat.le_trans hn' hle)) hn'⟩
      · exact happlied p hp n (hold p n hn (Nat.le_trans hle hversion)) hle
  · obtain ⟨hnone, hother⟩ := publish_none hp
    obtain ⟨w', hwriter, howes⟩ := h.pending p hnone
    refine ⟨w', hwriter, ?_⟩
    rw [put_ne fun hw => hother (by rw [hwriter, hw])]
    exact howes

theorem inv_step (x : System ι P × Ledger ι P) (e : Event ι P) (x' : System ι P × Ledger ι P) (h : Inv cfg x)
    (hstep : enterStep cfg x e = some x') (hok : Careful cfg x e) : Inv cfg x' := by
  cases move_of_step hstep with
  | plain w worker dict _ hd hctx hnew hpc => exact h.plain hd hctx hnew hpc
  | turned w p value => exact h.turned w p value
  | read w ver p peers _ hpc => exact h.read hpc
  | finished w ver _ hpc => exact h.finished hpc
  | published w he hpc =>
    subst he
    simp only [Careful, hpc] at hok
    exact h.published hok

/-- A worker that publishes without what others have published takes a version
that it has not applied. -/
theorem careful_of_applied (x : System ι P × Ledger ι P) (e : Event ι P) (x' : System ι P × Ledger ι P)
    (h : Inv cfg x)
    (hstep : enterStep cfg x e = some x') (hright : Right cfg x') : Careful cfg x e := by
  cases move_of_step hstep with
  | plain w worker dict hok => exact hok
  | turned w p value hok => exact hok
  | read w ver p peers hok => exact hok
  | finished w ver hok => exact hok
  | published w he hpc =>
    subst he
    simp only [Careful, hpc]
    intro p hp hstamp
    obtain ⟨n, hn⟩ := isSome_iff_exists.mp hstamp
    have happlied := hright.1 w p hp n
    rw [put_self] at happlied
    refine happlied ?_ (le_succ_of_le (h.stamped p n hn))
    exact (if_neg fun hnone => (by rw [hn] at hnone; cases hnone.1)).trans hn

omit [DecidableEq P] [DecidableEq ι] in
/-- With no change to publish every peer has a stamp, and no worker is behind it. -/
theorem Inv.right (h : Inv cfg x) : Right cfg x := by
  refine ⟨fun w => (h.fits w).applied, fun hquiet w p hp => ?_⟩
  cases hstamp : x.2.stamp p with
  | none =>
    obtain ⟨w', -, hnew, -⟩ := h.pending p hstamp
    cases hnew.symm.trans (hquiet w').2.1
  | some n =>
    refine (h.fits w).applied p hp n hstamp ?_
    rw [(hquiet w).2.2]
    exact h.stamped p n hstamp

omit [DecidableEq P] [DecidableEq ι] in
theorem inv_start {down : ι → P → Bool}
    (h : ∀ w, ∀ p ∈ cfg.peers, dict.version = 0 → down w p = dict.d p) :
    Inv cfg (start dict down) := by
  refine ⟨fun p n hn => ?_, fun w => ⟨Nat.zero_le _,
    fun _ _ hpc => (by cases hpc), fun p hp n hn hle => ?_⟩, fun p hp => (by cases hp)⟩
  · cases hn
    exact Nat.le_refl _
  · cases hn
    exact h w p hp (le_zero.mp hle)

/-- **The workers agree, and have what their versions stand for, if and only if
each has what the others have published whenever it publishes.** A dictionary
that has states but no version must also begin with the flags of the workers. -/
theorem versions_right_iff (cfg : Config P) (dict : Dict P) (down : ι → P → Bool) (es : List (Event ι P)) :
    Always (enterStep cfg) (Right cfg) (start dict down) es ↔
      (∀ w, ∀ p ∈ cfg.peers, dict.version = 0 → down w p = dict.d p) ∧
        Along (enterStep cfg) (Careful cfg) (start dict down) es := by
  constructor
  · intro h
    have hflags : ∀ w, ∀ p ∈ cfg.peers, dict.version = 0 → down w p = dict.d p := fun w p hp hzero =>
      h.here.1 w p hp dict.version rfl (Nat.le_of_eq hzero)
    exact ⟨hflags, (always_iff_along (fun _ => Inv.right) inv_step careful_of_applied (inv_start hflags)).mp h⟩
  · intro ⟨hflags, halong⟩
    exact (always_iff_along (fun _ => Inv.right) inv_step careful_of_applied (inv_start hflags)).mpr halong

/-- Each of two workers turns one of two peers down, and publishes; then the
first takes the version of the second. -/
def twoPublish : List (Event Bool Bool) :=
  let turned (w p : Bool) : List (Event Bool Bool) := .check w .fail p :: replicate 4 (.next w)
  turned false false ++ turned true true ++ [.publish false, .next false, .publish true, .next true] ++
    .update false :: replicate 3 (.next false)

/-- The second is at the current version with the first peer up. -/
theorem not_agreed_twoPublish : ∃ x, run (enterStep { fall := 1, rise := 1, peers := [false, true] })
      (start { streak := fun _ _ => none, d := fun _ => false, v := none } fun _ _ => false) twoPublish = some x ∧
    Quiet x.1 ∧ ¬ Agreed { fall := 1, rise := 1, peers := [false, true] } x.1 := by
  refine ⟨_, rfl, ?_, fun h => ?_⟩
  · intro w
    cases w <;> exact ⟨rfl, rfl, rfl⟩
  · cases h true false (by decide)

end OpenResty.Resty.Healthcheck
