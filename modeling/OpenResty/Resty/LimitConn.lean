/-
`resty.limit.conn`: a count of connections for each key, which every worker
raises and lowers. A connection above the limit raises the count too, and
lowers it again in a second step.
-/
import Mathlib.Data.Finset.Card
import OpenResty.Lib.Transition
import OpenResty.Resty.LimitReq

namespace OpenResty.Resty

open Lib Lib.Transition Function

def IncrError.limit : IncrError → LimitError
  | .notFound => .notFound
  | .notANumber => .notANumber

structure LimitConn where
  max : Rat
  burst : Rat
  unit_delay : Rat
  committed : Bool
  deriving DecidableEq

namespace LimitConn

/-- `nil` when the assertion fails -/
def new (max burst default_conn_delay : Rat) : Option LimitConn :=
  if 0 < max ∧ 0 ≤ burst ∧ 0 < default_conn_delay then
    some { max, burst, unit_delay := default_conn_delay, committed := false }
  else none

/-- What the increment of a committing `incoming` comes to. -/
inductive Entered
  | failed (e : LimitError)
  | beyond (conn : Rat)
  | under (conn : Rat)

/-- A committing `incoming`, up to its increment -/
def enter (self : LimitConn) (dict : Dict Text) (key : Bytes) : Entered × LimitConn × Dict Text :=
  let self := { self with committed := false }
  match dict.incr key 1 (some 0) with
  | (.error e, dict) => (.failed e.limit, self, dict)
  | (.ok conn, dict) =>
    if self.max + self.burst < conn then (.beyond conn, self, dict)
    else (.under conn, { self with committed := true }, dict)

/-- and after it, when it went over the limit -/
def back (conn : Rat) (dict : Dict Text) (key : Bytes) : LimitError × Dict Text :=
  match dict.incr key (-1) (some conn) with
  | (.error e, dict) => (e.limit, dict)
  | (.ok _, dict) => (.rejected, dict)

/-- The delay, and the connections. -/
def delayed (self : LimitConn) (conn : Rat) : Rat × Rat :=
  if self.max < conn then (self.unit_delay * ⌊(conn - 1) / self.max⌋, conn) else (0, conn)

/-- `dict:get(key) or 0`, as a number; an error where it is none. -/
def stored : Option (Value Text) → Option Rat
  | none | some (.boolean false) => some 0
  | some (.number n) => some n
  | some (.string s) => s.numeral
  | some (.boolean true) => none

/-- `nil` when an error is raised -/
def incoming (self : LimitConn) (dict : Dict Text) (key : Bytes) (commit : Bool) :
    Option (Except LimitError (Rat × Rat) × LimitConn × Dict Text) :=
  if commit then
    match self.enter dict key with
    | (.failed e, self, dict) => some (.error e, self, dict)
    | (.beyond conn, self, dict) =>
      let (e, dict) := back conn dict key
      some (.error e, self, dict)
    | (.under conn, self, dict) => some (.ok (self.delayed conn), self, dict)
  else
    let self := { self with committed := false }
    (stored (dict key)).map fun conn =>
      if self.max + self.burst < conn + 1 then (.error .rejected, self, dict)
      else (.ok (self.delayed (conn + 1)), self, dict)

def is_committed (self : LimitConn) : Bool := self.committed

def leaving (self : LimitConn) (dict : Dict Text) (key : Bytes) (req_latency : Option Rat) :
    Except LimitError Rat × LimitConn × Dict Text :=
  match dict.incr key (-1) none with
  | (.error e, dict) => (.error e.limit, self, dict)
  | (.ok conn, dict) =>
    let self :=
      match req_latency with
      | some latency => { self with unit_delay := (latency + self.unit_delay) / 2 }
      | none => self
    (.ok conn, self, dict)

def uncommit (dict : Dict Text) (key : Bytes) : Except LimitError Rat × Dict Text :=
  match dict.incr key (-1) none with
  | (.error e, dict) => (.error e.limit, dict)
  | (.ok conn, dict) => (.ok conn, dict)

/-! ## Requests in any number of workers -/

/-- Where a request is with its connection. -/
inductive Phase
  | idle
  /-- the increment went over the limit, and is to be taken back -/
  | beyond (conn : Rat)
  /-- committed, and not yet left -/
  | committed

/-- The dictionary, and the requests with the limiter object of each. -/
structure Workers (ι : Type) where
  dict : Dict Text
  object : ι → LimitConn
  phase : ι → Phase

inductive Event (ι : Type)
  | enter (i : ι)
  | back (i : ι)
  | leave (i : ι) (req_latency : Option Rat)

variable {ι : Type} [DecidableEq ι]

def step (key : Bytes) (s : Workers ι) : Event ι → Option (Workers ι)
  | .enter i =>
    match s.phase i with
    | .idle =>
      let (entered, object, dict) := (s.object i).enter s.dict key
      let phase :=
        match entered with
        | .failed _ => .idle
        | .beyond conn => .beyond conn
        | .under _ => .committed
      some { dict, object := update s.object i object, phase := update s.phase i phase }
    | _ => none
  | .back i =>
    match s.phase i with
    | .beyond conn => some { s with dict := (back conn s.dict key).2, phase := update s.phase i .idle }
    | _ => none
  | .leave i req_latency =>
    match s.phase i with
    | .committed =>
      let (_, object, dict) := (s.object i).leaving s.dict key req_latency
      some { dict, object := update s.object i object, phase := update s.phase i .idle }
    | _ => none

/-- Workers that have just made their objects. -/
def start (lim : LimitConn) : Workers ι := { dict := Dict.empty, object := fun _ => lim, phase := fun _ => .idle }

/-! ## The count -/

/-- The requests that hold a connection, and those that are to take their
increment back, are counted together. -/
structure Counts (lim : LimitConn) (key : Bytes) (s : Workers ι) (holding pending : Finset ι) : Prop where
  mem_holding : ∀ i, i ∈ holding ↔ s.phase i = .committed
  mem_pending : ∀ i, i ∈ pending ↔ ∃ conn, s.phase i = .beyond conn
  /-- the key is set by the first request -/
  count : s.dict key = some (.number (holding.card + pending.card)) ∨ s.dict key = none ∧ holding = ∅ ∧ pending = ∅
  bounded : (holding.card : Rat) ≤ lim.max + lim.burst
  limits : ∀ i, (s.object i).max = lim.max ∧ (s.object i).burst = lim.burst

variable {lim : LimitConn} {key : Bytes} {s s' : Workers ι} {holding pending : Finset ι} {i : ι} {phase : ι → Phase}
  {x : Phase}

theorem mem_insert_update (P : Phase → Prop) (h : ∀ j, j ∈ holding ↔ P (phase j)) (hx : P x) (j : ι) :
    j ∈ insert i holding ↔ P (update phase i x j) := by
  rw [Finset.mem_insert, h]
  by_cases hj : j = i
  · rw [hj, update_self]
    exact ⟨fun _ => hx, fun _ => .inl rfl⟩
  · rw [update_of_ne hj]
    exact ⟨fun h => h.resolve_left hj, .inr⟩

theorem mem_erase_update (P : Phase → Prop) (h : ∀ j, j ∈ holding ↔ P (phase j)) (hx : ¬ P x) (j : ι) :
    j ∈ holding.erase i ↔ P (update phase i x j) := by
  rw [Finset.mem_erase, h]
  by_cases hj : j = i
  · rw [hj, update_self]
    exact ⟨fun h => absurd rfl h.1, fun h => absurd h hx⟩
  · rw [update_of_ne hj]
    exact ⟨And.right, fun h => ⟨hj, h⟩⟩

omit [DecidableEq ι] in
/-- The increment of `incoming` gives one more than there are requests that hold
a connection or are to go back. -/
theorem Counts.incr (h : Counts lim key s holding pending) :
    s.dict.incr key 1 (some 0) =
      (.ok (holding.card + pending.card + 1), s.dict.set key (some (.number (holding.card + pending.card + 1)))) := by
  rcases h.count with hcount | ⟨hnone, hholding, hpending⟩
  · exact Dict.incr_number hcount ..
  · rw [Dict.incr_init hnone, hholding, hpending]
    norm_num

omit [DecidableEq ι] in
theorem Counts.decr (h : Counts lim key s holding pending) (hpos : 0 < holding.card + pending.card)
    (init : Option Rat) :
    s.dict.incr key (-1) init =
      (.ok (holding.card + pending.card - 1), s.dict.set key (some (.number (holding.card + pending.card - 1)))) := by
  rcases h.count with hcount | ⟨-, hholding, hpending⟩
  · rw [Dict.incr_number hcount, ← sub_eq_add_neg]
  · subst hholding hpending
    exact absurd hpos (Nat.lt_irrefl 0)

theorem Counts.limits_update (h : Counts lim key s holding pending) (i : ι) {object : LimitConn}
    (hobject : object.max = lim.max ∧ object.burst = lim.burst) (j : ι) :
    (update s.object i object j).max = lim.max ∧
      (update s.object i object j).burst = lim.burst := by
  by_cases hj : j = i
  · rw [hj, update_self]
    exact hobject
  · rw [update_of_ne hj]
    exact h.limits j

/-- A request enters: it holds a connection if there is room, and is to go back
if there is none. -/
theorem Counts.enter (h : Counts lim key s holding pending) (hidle : s.phase i = .idle)
    (hstep : step key s (.enter i) = some s') : ∃ holding pending, Counts lim key s' holding pending := by
  have hholding : i ∉ holding := by
    rw [h.mem_holding, hidle]
    exact Phase.noConfusion
  have hpending : i ∉ pending := by
    rw [h.mem_pending, hidle]
    exact fun ⟨_, hover⟩ => by cases hover
  simp only [step, hidle, LimitConn.enter, h.incr, h.limits i] at hstep
  by_cases hover : lim.max + lim.burst < holding.card + pending.card + 1
  · rw [if_pos hover] at hstep
    cases hstep
    refine ⟨holding.erase i, insert i pending, mem_erase_update (· = .committed) h.mem_holding Phase.noConfusion,
      mem_insert_update (∃ conn, · = .beyond conn) h.mem_pending ⟨_, rfl⟩, .inl ?_, ?_, h.limits_update i ⟨rfl, rfl⟩⟩
    · refine Dict.set_self.trans ?_
      rw [Finset.erase_eq_of_notMem hholding, Finset.card_insert_of_notMem hpending]
      push_cast
      ring_nf
    · rw [Finset.erase_eq_of_notMem hholding]
      exact h.bounded
  · rw [if_neg hover] at hstep
    cases hstep
    refine ⟨insert i holding, pending.erase i, mem_insert_update (· = .committed) h.mem_holding rfl,
      mem_erase_update (∃ conn, · = .beyond conn) h.mem_pending
        (fun ⟨_, hover⟩ => by cases hover), .inl ?_, ?_, h.limits_update i ⟨rfl, rfl⟩⟩
    · refine Dict.set_self.trans ?_
      rw [Finset.erase_eq_of_notMem hpending, Finset.card_insert_of_notMem hholding]
      push_cast
      ring_nf
    · -- all that are counted are below the limit
      have hnonneg : (0 : Rat) ≤ pending.card := Nat.cast_nonneg _
      rw [Finset.card_insert_of_notMem hholding]
      push_cast
      linarith

theorem Counts.back {conn : Rat} (h : Counts lim key s holding pending) (hover : s.phase i = .beyond conn)
    (hstep : step key s (.back i) = some s') : ∃ holding pending, Counts lim key s' holding pending := by
  have hpending : i ∈ pending := (h.mem_pending i).mpr ⟨conn, hover⟩
  have hholding : i ∉ holding := by
    rw [h.mem_holding, hover]
    exact Phase.noConfusion
  have hpos : 0 < holding.card + pending.card := Nat.add_pos_right _ (Finset.card_pos.mpr ⟨i, hpending⟩)
  simp only [step, hover, LimitConn.back, h.decr hpos] at hstep
  cases hstep
  refine ⟨holding.erase i, pending.erase i, mem_erase_update (· = .committed) h.mem_holding Phase.noConfusion,
    mem_erase_update (∃ conn, · = .beyond conn) h.mem_pending
      (fun ⟨_, hover⟩ => by cases hover), .inl ?_, ?_, h.limits⟩
  · refine Dict.set_self.trans ?_
    rw [Finset.erase_eq_of_notMem hholding, ← Finset.card_erase_add_one hpending]
    push_cast
    ring_nf
  · rw [Finset.erase_eq_of_notMem hholding]
    exact h.bounded

theorem Counts.leave {req_latency : Option Rat} (h : Counts lim key s holding pending)
    (hcommitted : s.phase i = .committed)
    (hstep : step key s (.leave i req_latency) = some s') : ∃ holding pending, Counts lim key s' holding pending := by
  have hholding : i ∈ holding := (h.mem_holding i).mpr hcommitted
  have hpending : i ∉ pending := by
    rw [h.mem_pending, hcommitted]
    exact fun ⟨_, hover⟩ => by cases hover
  have hpos : 0 < holding.card + pending.card := Nat.add_pos_left (Finset.card_pos.mpr ⟨i, hholding⟩) _
  simp only [step, hcommitted, leaving, h.decr hpos] at hstep
  cases hstep
  refine ⟨holding.erase i, pending.erase i, mem_erase_update (· = .committed) h.mem_holding Phase.noConfusion,
    mem_erase_update (∃ conn, · = .beyond conn) h.mem_pending
      (fun ⟨_, hover⟩ => by cases hover), .inl ?_, ?_, h.limits_update i ?_⟩
  · refine Dict.set_self.trans ?_
    rw [Finset.erase_eq_of_notMem hpending, ← Finset.card_erase_add_one hholding]
    push_cast
    ring_nf
  · exact le_trans (by exact_mod_cast Finset.card_erase_le) h.bounded
  · cases req_latency <;> exact h.limits i

theorem Counts.step (h : Counts lim key s holding pending) {e : Event ι} (hstep : step key s e = some s') :
    ∃ holding pending, Counts lim key s' holding pending := by
  cases e with
  | enter i =>
    cases hphase : s.phase i with
    | idle => exact h.enter hphase hstep
    | beyond _ | committed => simp [LimitConn.step, hphase] at hstep
  | back i =>
    cases hphase : s.phase i with
    | beyond conn => exact h.back hphase hstep
    | idle | committed => simp [LimitConn.step, hphase] at hstep
  | leave i req_latency =>
    cases hphase : s.phase i with
    | committed => exact h.leave hphase hstep
    | idle | beyond _ => simp [LimitConn.step, hphase] at hstep

/-- In every order of the increments of any number of requests, the count is
that of the connections held and of the increments to be taken back, and no
more connections are held than the limit and the burst. -/
theorem conn_counts {max burst default_conn_delay : Rat} (hnew : new max burst default_conn_delay = some lim)
    {es : List (Event ι)} (hrun : run (LimitConn.step key) (start lim) es = some s) :
    ∃ holding pending : Finset ι, (∀ i, i ∈ holding ↔ s.phase i = .committed) ∧
      (∀ i, i ∈ pending ↔ ∃ conn, s.phase i = .beyond conn) ∧
      stored (s.dict key) = some (holding.card + pending.card : Rat) ∧ (0 : Rat) ≤ holding.card + pending.card ∧
      (holding.card : Rat) ≤ max + burst := by
  unfold new at hnew
  split at hnew
  · next hassert =>
    obtain rfl := Option.some.inj hnew
    have hroom : ((∅ : Finset ι).card : Rat) ≤ max + burst := add_nonneg hassert.1.le hassert.2.1
    have hstart : ∃ holding pending,
      Counts _ key (start { max, burst, unit_delay := default_conn_delay, committed := false })
        (holding : Finset ι) pending :=
      ⟨∅, ∅, by simp [start], by simp [start], .inr ⟨rfl, rfl, rfl⟩, hroom, fun _ => ⟨rfl, rfl⟩⟩
    have hcounts : Always (LimitConn.step key) (fun s => ∃ holding pending, Counts _ key s holding pending) _ es :=
      always_of_step (fun _ _ _ ⟨_, _, h⟩ hs => h.step hs) hstart
    obtain ⟨holding, pending, h⟩ := hcounts.reached hrun
    refine ⟨holding, pending, h.mem_holding, h.mem_pending, ?_, by positivity, h.bounded⟩
    rcases h.count with hcount | ⟨hnone, hholding, hpending⟩
    · rw [hcount]
      rfl
    · rw [hnone, hholding, hpending]
      simp [stored]
  · cases hnew

/-- One holds the connection, and one has to go back. -/
theorem conn_counts_two :
    ∃ s, run (step [97]) (start { max := 1, burst := 0, unit_delay := 1, committed := false }) [.enter 0,
      .enter 1] = some s ∧
      ∃ holding pending : Finset Nat, (∀ i, i ∈ holding ↔ s.phase i = .committed) ∧
        (∀ i, i ∈ pending ↔ ∃ conn, s.phase i = .beyond conn) ∧
        stored (s.dict [97]) = some (holding.card + pending.card : Rat) ∧ (0 : Rat) ≤ holding.card + pending.card ∧
        (holding.card : Rat) ≤ 1 + 0 :=
  have hnew : new 1 0 1 = some { max := 1, burst := 0, unit_delay := 1, committed := false } := by decide +kernel
  have hsome : (run (step [97]) (start { max := 1, burst := 0, unit_delay := 1, committed := false })
    [.enter 0, .enter 1]).isSome = true := by decide +kernel
  have hrun := (Option.some_get hsome).symm
  ⟨_, hrun, conn_counts hnew hrun⟩

end LimitConn

end OpenResty.Resty
