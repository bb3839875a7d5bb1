/-
`get_balancer` and `apply_history` of kong/core/balancer.lua: the balancer object
of an upstream, brought to the history of targets that was loaded.

The loop that looks for the last equal index only sets it where it finds a
mismatch. Where all the recorded entries are there, it stays 0.
-/
import OpenResty.Kong.Targets

namespace OpenResty.Kong.Balancer

open Lib Lib.Transition List Option

/-- An entry of the history, as it is recorded. -/
structure Record where
  name : Option String
  port : Option Rat
  weight : Rat
  order : String

inductive Op
  | addHost (name : Option String) (port : Option Rat) (weight : Rat)
  | removeHost (name : Option String) (port : Option Rat)

/-- The fields of a target that the loader sets, and the weight. -/
def Record.ofTarget (target : Targets.Entry) : Record :=
  { name := (Targets.splitTarget target.target.text).map Prod.fst
    port := (Targets.splitTarget target.target.text).bind Prod.snd
    weight := target.weight
    order := Targets.order target }

/-- The history as `load_targets_into_memory` returns it. -/
def load (target_history : List Targets.Entry) : List Record :=
  (Targets.load_targets_into_memory target_history).map Record.ofTarget

def operation (target : Record) : Op :=
  if target.weight > 0 then .addHost target.name target.port target.weight else .removeHost target.name target.port

/-- A ring-balancer with the operations that were applied to it. -/
structure RingBalancer where
  object : Nat
  applied : List Op
  targets_history : List Record

/-- What the ring-balancer library answers: an error of `new`, and which operation
it takes behind which others. One that raises an error has no effect. -/
structure Answers where
  new : Option String
  accepts : List Op → Op → Bool

/-- `balancers[upstream.name]`, with the number of objects made. -/
structure Balancers where
  made : Nat
  balancer : Option RingBalancer

inductive Outcome
  | balancer (rb : RingBalancer)
  | failed (err : String)
  | raised

/-- The loop over the entries; false where an operation raises an error. -/
def applyEntries (ring : Answers) (rb : RingBalancer) : List Record → RingBalancer × Bool
  | [] => (rb, true)
  | target :: rest =>
    if ring.accepts rb.applied (operation target) then
      -- `start` is behind the last recorded entry, and so is each `i`
      let rb :=
        { rb with
          applied := rb.applied ++ [operation target]
          targets_history := rb.targets_history ++ [target] }
      applyEntries ring rb rest
    else (rb, false)

def apply_history (ring : Answers) (rb : RingBalancer) (history : List Record) (start : Nat) : RingBalancer × Bool :=
  applyEntries ring rb (history.drop (start - 1))

/-- `(history[i] or EMPTY_T).order` -/
def orderAt (history : List Record) (i : Nat) : Option String :=
  if i = 0 then none else (history[i - 1]?).map Record.order

/-- The loop over the recorded entries from index `i` on. -/
def lastEqualIndex (targets_history : List Record) : Nat → List Record → Nat
  | _, [] => 0
  | i, entry :: rest =>
    if some entry.order ≠ orderAt targets_history i then i - 1 else lastEqualIndex targets_history (i + 1) rest

def finish (made : Nat) (r : RingBalancer × Bool) : Balancers × Outcome :=
  ({ made := made, balancer := some r.1 }, if r.2 then .balancer r.1 else .raised)

/-- The size and the last order are the same. -/
def SameEnds (history targets_history : List Record) : Prop :=
  history.length = targets_history.length ∧
    orderAt history history.length = orderAt targets_history targets_history.length

instance (history targets_history : List Record) : Decidable (SameEnds history targets_history) :=
  inferInstanceAs (Decidable (_ ∧ _))

/-- From the check of the history state on. -/
def checkHistory (ring : Answers) (s : Balancers) (balancer : RingBalancer) (targets_history : List Record) :
    Balancers × Outcome :=
  if SameEnds balancer.targets_history targets_history then (s, .balancer balancer)
  else
    let last_equal_index := lastEqualIndex targets_history 1 balancer.targets_history
    if last_equal_index = balancer.targets_history.length then
      finish s.made (apply_history ring balancer targets_history (last_equal_index + 1))
    else
      match ring.new with
      | some err => (s, .failed err)
      | none => finish (s.made + 1) (apply_history ring ⟨s.made, [], []⟩ targets_history 1)

/-- `get_balancer` for an upstream that is there, with the answer to the query for its targets. -/
def get_balancer (ring : Answers) (s : Balancers) (targets : Except String (List Targets.Entry)) :
    Balancers × Outcome :=
  match targets with
  | .error err => (s, .failed err)
  | .ok target_history =>
    match s.balancer with
    | some balancer => checkHistory ring s balancer (load target_history)
    | none =>
      match ring.new with
      | some err => (s, .failed err)
      | none =>
        checkHistory ring { made := s.made + 1, balancer := some ⟨s.made, [], []⟩ } ⟨s.made, [], []⟩
          (load target_history)

/-! ## Runs -/

inductive Event
  | lookup (ring : Answers) (targets : Except String (List Targets.Entry))
  /-- `invalidate_balancer`, and the end of an upstream that was deleted -/
  | invalidate

def step (s : Balancers) : Event → Option Balancers
  | .lookup ring targets => some (get_balancer ring s targets).1
  | .invalidate => some { s with balancer := none }

/-- The object is still there, and only some of `new` was applied to it. -/
def Kept (s s' : Balancers) (rb : RingBalancer) (new : List Record) : Prop :=
  s'.made = s.made ∧ ∃ rb' done, s'.balancer = some rb' ∧ rb'.object = rb.object ∧ done <+: new ∧
    rb'.applied = rb.applied ++ done.map operation

/-- What a lookup is to do with the loaded history. -/
structure Follows (s : Balancers) (r : Balancers × Outcome) (history : List Record) : Prop where
  applied : ∀ rb, r.2 = .balancer rb → rb.applied = history.map operation
  kept : ∀ rb, s.balancer = some rb → rb.targets_history <+: history →
    Kept s r.1 rb (history.drop rb.targets_history.length)

def Right (s : Balancers) : Event → Prop
  | .lookup ring (.ok target_history) => Follows s (get_balancer ring s (.ok target_history)) (load target_history)
  | _ => True

/-- With the ends the same the operations are, and a history that goes on from
what is recorded is not met where the library makes a new object. -/
def Careful (s : Balancers) : Event → Prop
  | .lookup ring (.ok target_history) =>
    ∀ rb, s.balancer = some rb →
      (SameEnds rb.targets_history (load target_history) →
        rb.targets_history.map operation = (load target_history).map operation) ∧
      (rb.targets_history ≠ [] → rb.targets_history ≠ load target_history → ring.new = none →
        ¬ rb.targets_history <+: load target_history)
  | _ => True

/-- What is recorded is what was applied. -/
def Recorded (rb : RingBalancer) : Prop := rb.applied = rb.targets_history.map operation

def Inv (s : Balancers) : Prop := ∀ rb, s.balancer = some rb → Recorded rb

variable {ring : Answers} {s s' : Balancers} {rb rb' : RingBalancer} {history : List Record} {ev : Event} {i : Nat}

/-! ## One lookup -/

theorem applyEntries_spec (ring : Answers) (rb : RingBalancer) (history : List Record) :
    ∃ done, done <+: history ∧ (applyEntries ring rb history).1.object = rb.object ∧
      (applyEntries ring rb history).1.applied = rb.applied ++ done.map operation ∧
      (applyEntries ring rb history).1.targets_history = rb.targets_history ++ done ∧
      ((applyEntries ring rb history).2 = true → done = history) := by
  induction history generalizing rb with
  | nil => exact ⟨[], prefix_refl [], rfl, by simp [applyEntries], by simp [applyEntries], fun _ => rfl⟩
  | cons target rest ih =>
    rw [applyEntries]
    split
    · obtain ⟨done, hprefix, hobject, happlied, hrecorded, hall⟩ := ih
        { rb with
          applied := rb.applied ++ [operation target]
          targets_history := rb.targets_history ++ [target] }
      refine ⟨target :: done, cons_prefix_cons.mpr ⟨rfl, hprefix⟩, hobject, ?_, ?_, fun h => by rw [hall h]⟩
      · rw [happlied, append_assoc, map_cons, singleton_append]
      · rw [hrecorded, append_assoc, singleton_append]
    · refine ⟨[], nil_prefix, rfl, by simp, by simp, fun h => by cases h⟩

theorem lastEqualIndex_lt (hi : 0 < i) (hne : history ≠ []) (targets_history : List Record) :
    lastEqualIndex targets_history i history < i - 1 + history.length := by
  induction history generalizing i with
  | nil => exact absurd rfl hne
  | cons entry rest ih =>
    rw [lastEqualIndex, length_cons]
    split
    · omega
    · by_cases hrest : rest = []
      · subst hrest
        simp only [lastEqualIndex, length_nil]
        omega
      · have := ih (i := i + 1) (by omega) hrest
        omega

/-- All the recorded entries are taken for equal only where there is none. -/
theorem lastEqualIndex_eq_length (history targets_history : List Record) :
    lastEqualIndex targets_history 1 history = history.length ↔ history = [] := by
  constructor
  · intro h
    by_contra hne
    have := lastEqualIndex_lt Nat.one_pos hne targets_history
    omega
  · rintro rfl
    rfl

theorem follows_sameEnds (hrec : Recorded rb) (hs : s.balancer = some rb) :
    Follows s (s, .balancer rb) history ↔ rb.targets_history.map operation = history.map operation := by
  constructor
  · intro h
    rw [← hrec, h.applied rb rfl]
  · intro h
    refine ⟨fun rb' heq => ?_, fun rb' hs' hprefix => ?_⟩
    · cases heq
      rw [hrec, h]
    · obtain rfl := some.inj (hs.symm.trans hs')
      exact ⟨rfl, rb, [], hs, rfl, nil_prefix, by simp⟩

theorem finish_applied {made : Nat} (hrec : Recorded rb) (hempty : rb.targets_history = [])
    (h : (finish made (apply_history ring rb history 1)).2 = .balancer rb') :
    rb'.applied = history.map operation := by
  obtain ⟨done, -, -, happlied, -, hall⟩ := applyEntries_spec ring rb history
  rw [finish, apply_history, Nat.sub_self, drop_zero] at h
  split at h
  · next hok =>
    cases h
    rw [happlied, hrec, hempty, hall hok]
    rfl
  · cases h

theorem checkHistory_sameEnds (h : SameEnds rb.targets_history history) :
    checkHistory ring s rb history = (s, .balancer rb) := if_pos h

/-- Behind an empty record all of the history is applied. -/
theorem checkHistory_empty (h : ¬ SameEnds rb.targets_history history) (hempty : rb.targets_history = []) :
    checkHistory ring s rb history = finish s.made (apply_history ring rb history 1) := by
  rw [checkHistory, if_neg h, hempty]
  rfl

/-- Behind any other a new object is made. -/
theorem checkHistory_rebuild (h : ¬ SameEnds rb.targets_history history) (hne : rb.targets_history ≠ []) :
    checkHistory ring s rb history =
      match ring.new with
      | some err => (s, .failed err)
      | none => finish (s.made + 1) (apply_history ring ⟨s.made, [], []⟩ history 1) := by
  rw [checkHistory, if_neg h]
  exact if_neg (fun heq => hne ((lastEqualIndex_eq_length _ _).mp heq))

theorem recorded_new (n : Nat) : Recorded ⟨n, [], []⟩ := rfl

theorem recorded_finish {made : Nat} (hrec : Recorded rb) (start : Nat)
    (h : (finish made (apply_history ring rb history start)).1.balancer = some rb') : Recorded rb' := by
  obtain ⟨done, -, -, happlied, hrecorded, -⟩ := applyEntries_spec ring rb (history.drop (start - 1))
  cases h
  rw [Recorded, apply_history, happlied, hrecorded, hrec, map_append]

theorem inv_checkHistory (hinv : Inv s) (hrec : Recorded rb) : Inv (checkHistory ring s rb history).1 := by
  by_cases hends : SameEnds rb.targets_history history
  · rw [checkHistory_sameEnds hends]
    exact hinv
  · by_cases hempty : rb.targets_history = []
    · rw [checkHistory_empty hends hempty]
      exact fun rb' h => recorded_finish hrec 1 h
    · rw [checkHistory_rebuild hends hempty]
      cases ring.new with
      | some err => exact hinv
      | none => exact fun rb' h => recorded_finish (recorded_new s.made) 1 h

theorem Inv.step (hinv : Inv s) (hstep : Balancer.step s ev = some s') : Inv s' := by
  cases ev with
  | invalidate =>
    cases hstep
    exact fun rb h => by cases h
  | lookup ring targets =>
    obtain rfl := some.inj hstep
    cases targets with
    | error err => exact hinv
    | ok target_history =>
      simp only [get_balancer]
      split
      · next rb hs => exact inv_checkHistory hinv (hinv rb hs)
      · split
        · exact hinv
        · refine inv_checkHistory (fun rb h => ?_) (recorded_new s.made)
          obtain rfl := some.inj h
          exact recorded_new s.made

/-- The first entries go to the object that is there. -/
theorem follows_empty (hrec : Recorded rb) (hempty : rb.targets_history = [])
    (hs : ∀ rb', s.balancer = some rb' → rb' = rb) :
    Follows s (finish s.made (apply_history ring rb history 1)) history := by
  refine ⟨fun rb' h => finish_applied hrec hempty h, fun rb' hs' _ => ?_⟩
  obtain rfl := hs rb' hs'
  obtain ⟨done, hprefix, hobject, happlied, -, -⟩ := applyEntries_spec ring rb' history
  refine ⟨rfl, _, done, rfl, hobject, ?_, happlied⟩
  rwa [hempty, length_nil, drop_zero]

/-- A new object is right where the record does not go on in the history. -/
theorem follows_rebuild (hs : s.balancer = some rb) :
    Follows s (finish (s.made + 1) (apply_history ring ⟨s.made, [], []⟩ history 1)) history ↔
      ¬ rb.targets_history <+: history := by
  constructor
  · intro h hprefix
    exact absurd (h.kept rb hs hprefix).1 (Nat.succ_ne_self s.made)
  · intro hnot
    refine ⟨fun rb' h => finish_applied (recorded_new s.made) rfl h, fun rb' hs' hprefix => ?_⟩
    obtain rfl := some.inj (hs.symm.trans hs')
    exact absurd hprefix hnot

theorem follows_failed (s : Balancers) {err : String} : Follows s (s, .failed err) history := by
  refine ⟨fun rb h => (by cases h), fun rb hs _ => ?_⟩
  exact ⟨rfl, rb, [], hs, rfl, nil_prefix, by simp⟩

/-- A lookup that finds an object does what it should under the two conditions, and only there. -/
theorem follows_checkHistory (hrec : Recorded rb) (hs : s.balancer = some rb) :
    Follows s (checkHistory ring s rb history) history ↔
      (SameEnds rb.targets_history history → rb.targets_history.map operation = history.map operation) ∧
      (rb.targets_history ≠ [] → rb.targets_history ≠ history → ring.new = none →
        ¬ rb.targets_history <+: history) := by
  by_cases hends : SameEnds rb.targets_history history
  · rw [checkHistory_sameEnds hends, follows_sameEnds hrec hs]
    refine ⟨fun h => ⟨fun _ => h, fun _ hne _ hgoes => ?_⟩, fun h => h.1 hends⟩
    exact hne (hgoes.eq_of_length hends.1)
  · have hne : rb.targets_history ≠ history := fun heq => hends ⟨by rw [heq], by rw [heq]⟩
    by_cases hempty : rb.targets_history = []
    · rw [checkHistory_empty hends hempty]
      refine iff_of_true (follows_empty hrec hempty fun rb' hs' => ?_) ⟨fun h => absurd h hends, fun h =>
        absurd hempty h⟩
      exact some.inj (hs'.symm.trans hs)
    · rw [checkHistory_rebuild hends hempty]
      cases hnew : ring.new with
      | some err =>
        exact iff_of_true (follows_failed s) ⟨fun h => absurd h hends, fun _ _ h => by cases h⟩
      | none =>
        rw [follows_rebuild hs]
        exact ⟨fun h => ⟨fun h' => absurd h' hends, fun _ _ _ => h⟩, fun h => h.2 hempty hne rfl⟩

/-- The first lookup of an upstream does what it should. -/
theorem follows_first (hs : s.balancer = none) :
    Follows s (checkHistory ring { made := s.made + 1, balancer := some ⟨s.made, [], []⟩ } ⟨s.made, [], []⟩ history)
      history := by
  refine ⟨fun rb h => ?_, fun rb h => by rw [hs] at h; cases h⟩
  have hfollows : Follows { made := s.made + 1, balancer := some ⟨s.made, [], []⟩ }
      (checkHistory ring { made := s.made + 1, balancer := some ⟨s.made, [], []⟩ } ⟨s.made, [], []⟩ history)
        history := by
    refine (follows_checkHistory (recorded_new s.made) rfl).mpr ⟨fun hends => ?_, fun hne => absurd rfl hne⟩
    rw [eq_nil_of_length_eq_zero hends.1.symm]
  exact hfollows.applied rb h

theorem Inv.right_iff (hinv : Inv s) : Right s ev ↔ Careful s ev := by
  cases ev with
  | invalidate => exact Iff.rfl
  | lookup ring targets =>
    cases targets with
    | error err => exact Iff.rfl
    | ok target_history =>
      cases hs : s.balancer with
      | some rb =>
        have hlookup : get_balancer ring s (.ok target_history) = checkHistory ring s rb (load target_history) := by
          simp only [get_balancer, hs]
        rw [Right, hlookup, follows_checkHistory (hinv rb hs) hs, Careful]
        constructor
        · rintro h rb' hs'
          obtain rfl := some.inj (hs.symm.trans hs')
          exact h
        · exact fun h => h rb hs
      | none =>
        refine iff_of_true ?_ fun rb h => by rw [hs] at h; cases h
        simp only [Right, get_balancer, hs]
        cases ring.new with
        | some err => exact follows_failed s
        | none => exact follows_first hs

/-- **Every lookup of a run leaves the balancer with the operations of the loaded
history, on the object that was there where the history goes on from its record,
exactly in the runs where no history goes on from a record that is not empty with
a new object to be had, and where a size and last order come again only with the
same operations.** -/
theorem lookups_right_iff (es : List Event) : Along step Right ⟨0, none⟩ es ↔ Along step Careful ⟨0, none⟩ es :=
  along_iff_along (I := Inv) (fun _ _ _ hinv _ => hinv.right_iff) (fun _ _ _ hinv hstep _ => hinv.step hstep)
    fun rb h => by cases h

/-- A library that takes everything. -/
def willing : Answers := ⟨none, fun _ _ => true⟩

theorem weight_valid : Targets.WEIGHT_MIN ≤ 100 ∧ 100 ≤ Targets.WEIGHT_MAX := by decide

def first : Targets.Entry := ⟨"a31f", 1500, ⟨"10.0.0.1", 80⟩, 100, weight_valid⟩

def second : Targets.Entry := ⟨"b45c", 1600, ⟨"10.0.0.2", 80⟩, 100, weight_valid⟩

/-- A second target is added, and a new object is made. -/
theorem not_right_second :
    ¬ Along step Right ⟨0, none⟩ [.lookup willing (.ok [first]), .lookup willing (.ok [first, second])] := by
  have hload : load [first] = [.ofTarget first] := by simp [load, Targets.load_targets_into_memory, Targets.sortUp]
  have hload' : load [first, second] = [.ofTarget first, .ofTarget second] := by
    have hsort : Targets.load_targets_into_memory [first, second] = [first, second] :=
      mergeSort_of_pairwise (by decide)
    rw [load, hsort]
    rfl
  obtain ⟨rb, hs, hrecorded⟩ : ∃ rb, (get_balancer willing ⟨0, none⟩ (.ok [first])).1.balancer = some rb ∧
      rb.targets_history = [.ofTarget first] := by
    have hends : ¬ SameEnds (RingBalancer.mk 0 [] []).targets_history [Record.ofTarget first] := fun h => by cases h.1
    simp only [get_balancer, hload, willing, checkHistory_empty hends rfl]
    exact ⟨_, rfl, rfl⟩
  intro h
  obtain ⟨-, hsecond⟩ := h _ rfl
  have hstep : step ⟨0, none⟩ (.lookup willing (.ok [first])) = some (get_balancer willing ⟨0, none⟩
    (.ok [first])).1 := rfl
  have hinv := Inv.step (s := ⟨0, none⟩) (fun rb h => by cases h) hstep
  have hcareful := (hinv.right_iff.mp (hsecond _ rfl).1) rb hs
  rw [hrecorded, hload'] at hcareful
  exact hcareful.2 (cons_ne_nil _ _) (by simp) rfl ⟨[.ofTarget second], rfl⟩

end OpenResty.Kong.Balancer
