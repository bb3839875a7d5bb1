/-
The requests of one worker, which share its rule tables and its dictionaries.

Two things of a request stay in the worker: the keys `setvar` has parsed, which
it writes into the rules, and the dictionaries made for `PM`, which are kept
under the id of a rule, not its words. While no key changes when it is parsed
and no rule finds the dictionary of other words, the rules stay as they are and
a request is processed as it would be by a worker that has just started.
-/
import OpenResty.Waf.TransformCache

namespace OpenResty.Waf

open Lua Lib Option

/-! ## Workers -/

/-- A request, and the instance that processes it: the options, the phases, and
the stores outside the worker. -/
structure Transaction where
  env : Env
  calls : List Call
  store : Storage

/-- How a phase ends. -/
def stopOf : EStateM.Result Stop State Unit → Option Stop
  | .ok _ _ => none
  | .error e _ => some e

/-- How each phase of a request ends. -/
def execStops (env : Env) : List Call → State → List (Option Stop)
  | [], _ => []
  | call :: calls, s => stopOf (exec env call s) :: execStops env calls (finalState (exec env call) s)

namespace Transaction

variable (t : Transaction) (w : Worker)

/-- The state after the request, in a worker. -/
def run : State := execAll t.env t.calls (.begin w t.store)

/-- What comes of the request: how its phases end, and its context, storage and
log entries at the end. -/
def outcome : List (Option Stop) × Request := (execStops t.env t.calls (.begin w t.store), (t.run w).req)

end Transaction

/-- A worker that has just loaded its rules. -/
def Worker.new (rules : String → Phase → List Rule) : Worker := { rules, dicts := [] }

/-- The worker after a sequence of requests. -/
def Worker.after : Worker → List Transaction → Worker
  | w, [] => w
  | w, t :: ts => Worker.after (t.run w).worker ts

/-- A request after others leaves the rules as they were loaded, and comes out
as in a worker that has just started. -/
structure Isolated (rules : String → Phase → List Rule) (history : List Transaction) (t : Transaction) : Prop where
  intact : (t.run ((Worker.new rules).after history)).worker.rules = rules
  outcome : t.outcome ((Worker.new rules).after history) = t.outcome (.new rules)

/-- A parsed key is the one the rule has, and a dictionary found is the rule's own. -/
def Event.Clean : Event → Prop
  | .rekeyed old key => old = some key
  | .consulted dict own => own = .ok dict
  | _ => True

instance : DecidablePred Event.Clean := fun e =>
  match e with
  | .rekeyed _ _ => inferInstanceAs (Decidable (_ = _))
  | .consulted _ _ => inferInstanceAs (Decidable (_ = _))
  | .began .. | .wrote .. | .handed .. | .turned .. | .matched .. | .acted .. | .logged .. | .disrupted .. =>
    inferInstanceAs (Decidable True)

def CleanRun (s : State) : Prop := ∀ e ∈ s.events, e.Clean

/-- Every request of a sequence has a clean run. -/
def CleanRuns : Worker → List Transaction → Prop
  | _, [] => True
  | w, t :: ts => CleanRun (t.run w) ∧ CleanRuns (t.run w).worker ts

/-! ## Steps -/

variable {env : Env}

/-- Something has not been clean. -/
def Dirty (s : State) : Prop := ∃ e ∈ s.events, ¬ e.Clean

theorem Dirty.emit {s : State} (h : Dirty s) (e : Event) : Dirty (s.emit e) := by
  obtain ⟨e', hmem, he⟩ := h
  exact ⟨e', List.mem_cons_of_mem _ hmem, he⟩

theorem dirty_emit {s : State} {e : Event} (h : ¬ e.Clean) : Dirty (s.emit e) := ⟨e, List.mem_cons_self, h⟩

theorem not_dirty {s : State} (h : CleanRun s) : ¬ Dirty s := fun ⟨e, hmem, he⟩ => he (h e hmem)

/-- The rules are as they were. -/
def Intact (rules : String → Phase → List Rule) (s : State) : Prop := Dirty s ∨ s.worker.rules = rules

/-- Two runs of one request, the first in a worker that may have more dictionaries. -/
structure Agree (s t : State) : Prop where
  req : s.req = t.req
  rules : s.worker.rules = t.worker.rules
  dicts : ∀ id dict, t.worker.dicts.lookup id = some dict → s.worker.dicts.lookup id = some dict

theorem keeps_dirty_write (f : Request → Except String Request) : Keeps Dirty (write f) := by
  intro s hs
  cases h : f s.req with
  | ok r =>
    rw [finalState_ok (write_ok h)]
    exact hs.emit _
  | error e => rwa [finalState_error (write_error h)]

variable {α : Type}

variable {m : M α}

theorem PhaseStep.keepsDirty (h : PhaseStep env α m) : Keeps Dirty m := by
  intro s hs
  cases h with
  | read | ruleAt | ruleCount => exact hs
  | update h => exact hs
  | write h => exact keeps_dirty_write _ s hs
  | emit h => exact hs.emit _
  | fetch transform var =>
    rcases collectionOf_cases env transform var s with ⟨-, h⟩ | ⟨-, e, -, h⟩ | ⟨-, slot, r, -, h⟩
    · rwa [finalState_ok h]
    · rwa [finalState_error h]
    · rw [finalState_ok h]
      exact hs.emit _
  | operate operator collection pattern =>
    obtain ⟨dicts, hd⟩ := operate_frame env operator collection pattern s
    rw [hd]
    cases consultedOf operator s with
    | none => exact hs
    | some dict => exact hs.emit (.consulted dict (createAc pattern))
  | rekey place i key => exact hs.emit (.rekeyed (s.worker.keyAt place i) key)

/-! ## The rules -/

theorem modify_eq_self {f : α → α} : ∀ {l : List α} {n : Nat}, (∀ a, l[n]? = some a → f a = a) →
    l.modify n f = l
  | [], _, _ => by simp
  | a :: l, 0, h => by simp [h a rfl]
  | a :: l, n + 1, h => by simp [modify_eq_self (l := l) (n := n) (fun a ha => h a (by simpa using ha))]

/-- Writing the key that is there changes nothing. -/
theorem withKey_self {w : Worker} {place : Place} {i : Nat} {key : Scalar} (h : w.keyAt place i = some key) :
    w.withKey place i key = w := by
  have hrules : (w.withKey place i key).rules = w.rules := by
    funext ruleset phase
    simp only [Worker.withKey]
    split
    · next hp =>
      obtain ⟨rfl, rfl⟩ := hp
      refine modify_eq_self fun rule hrule => ?_
      simp only [Worker.keyAt, hrule, bind_some] at h
      have hlist : rule.actions.nondisrupt.modify i (·.withKey key) = rule.actions.nondisrupt := by
        refine modify_eq_self fun action haction => ?_
        simp only [haction, bind_some] at h
        cases action <;> first | rfl | (cases h; rfl)
      simp only [Rule.withKey, hlist]
    · rfl
  calc w.withKey place i key
      = { w with rules := (w.withKey place i key).rules } := rfl
    _ = w := by rw [hrules]

variable {rules : String → Phase → List Rule}

theorem keeps_intact_write (f : Request → Except String Request) : Keeps (Intact rules) (write f) := by
  intro s hs
  cases h : f s.req with
  | ok r =>
    rw [finalState_ok (write_ok h)]
    exact hs.imp_left (·.emit _)
  | error e => rwa [finalState_error (write_error h)]

/-- A step leaves the rules, or is not clean. -/
theorem PhaseStep.keepsIntact (h : PhaseStep env α m) : Keeps (Intact rules) m := by
  intro s hs
  rcases hs with hs | hs
  · exact .inl (h.keepsDirty s hs)
  cases h with
  | read | ruleAt | ruleCount | update | emit => exact .inr hs
  | write h => exact keeps_intact_write _ s (.inr hs)
  | fetch transform var =>
    rcases collectionOf_cases env transform var s with ⟨-, h⟩ | ⟨-, e, -, h⟩ | ⟨-, slot, r, -, h⟩
    · exact .inr (by rwa [finalState_ok h])
    · exact .inr (by rwa [finalState_error h])
    · exact .inr (by rwa [finalState_ok h])
  | operate operator collection pattern =>
    obtain ⟨dicts, hd⟩ := operate_frame env operator collection pattern s
    rw [hd]
    exact .inr hs
  | rekey place i key =>
    by_cases hkey : s.worker.keyAt place i = some key
    · right
      show (s.worker.withKey place i key).rules = rules
      rwa [withKey_self hkey]
    · exact .inl (dirty_emit hkey)

/-! ## Two workers -/

/-- A step both runs take alike, on equal requests. -/
theorem lockstep_write (f : Request → Except String Request) : Lockstep Dirty Agree (write f) := by
  intro s t h
  right
  cases hf : f t.req with
  | ok r =>
    rw [write_ok (by rw [h.req, hf]), write_ok hf]
    exact ⟨rfl, rfl, h.rules, h.dicts⟩
  | error e =>
    rw [write_error (by rw [h.req, hf]), write_error hf]
    exact ⟨rfl, h⟩

theorem lockstep_fetch (transform : Option TransformOpt) (var : Var) :
    Lockstep Dirty Agree (collectionOf env transform var) := by
  intro s t h
  right
  rw [collectionOf_run, collectionOf_run, h.req]
  split
  · exact ⟨rfl, h⟩
  split
  · exact ⟨rfl, rfl, h.rules, h.dicts⟩
  · exact ⟨rfl, h⟩

/-- Without `PM` the dictionaries make no difference. -/
theorem lookup_dicts {op : OpEnv} {operator : Operator} (h : operator ≠ .PM) (dicts dicts' : Dicts) (ctx : OpCtx)
    (collection : Val) (pattern : Option Val) :
    lookup op dicts ctx operator collection pattern =
      ((lookup op dicts' ctx operator collection pattern).1, dicts) := by
  cases operator <;> first | rfl | exact absurd rfl h

/-- The state after an operator has run. -/
def State.operated (s : State) (dicts : Dicts) (kept : Option (List String)) (pattern : Option Val) : State :=
  { s with
    worker := { s.worker with dicts }
    events := (kept.map fun dict => Event.consulted dict (createAc pattern)).toList ++ s.events }

/-- The answer of an operator, in the state after it. -/
def answer (found : Except String Found) (s : State) : EStateM.Result Stop State Found :=
  match found with
  | .ok found => .ok found s
  | .error e => .error (.raised e) s

theorem operate_run (operator : Operator) (collection : Val) (pattern : Option Val) (s : State) :
    operate env (some operator) collection pattern s =
      let found := lookup env.op s.worker.dicts { id := s.req.id, nameservers := env.nameservers } operator
        collection pattern
      answer found.1 (s.operated found.2 (consultedOf (some operator) s) pattern) := by
  simp only [operate, consultedOf, some.injEq]
  cases lookup env.op s.worker.dicts { id := s.req.id, nameservers := env.nameservers } operator collection
    pattern with
  | mk found dicts => cases found <;> rfl

theorem sameResult_answer {found : Except String Found} {s t : State} (h : Agree s t) :
    SameResult Agree (answer found s) (answer found t) := by
  cases found <;> exact ⟨rfl, h⟩

/-- `PM` finds the rule's own dictionary in both workers, or makes it. -/
theorem lockstep_pm (collection : Val) (pattern : Option Val) :
    Lockstep Dirty Agree (operate env (some .PM) collection pattern) := by
  intro s t h
  by_cases hclean : ∀ dict, consultedOf (some .PM) s = some dict → createAc pattern = .ok dict
  · right
    rw [operate_run, operate_run]
    simp only [lookup, acLookup, h.req]
    cases hid : t.req.id with
    | none =>
      simp only [bind_none]
      cases createAc pattern <;> exact sameResult_answer ⟨h.req, h.rules, h.dicts⟩
    | some id =>
      simp only [consultedOf, h.req, hid, if_true, bind_some] at hclean ⊢
      cases ht : t.worker.dicts.lookup id with
      | some dict =>
        rw [h.dicts id dict ht]
        exact sameResult_answer ⟨h.req, h.rules, h.dicts⟩
      | none =>
        cases hs : s.worker.dicts.lookup id with
        | some dict =>
          -- made by the first worker before, and by the second now
          simp only [hclean dict hs]
          refine sameResult_answer ⟨h.req, h.rules, fun id' dict' hd => ?_⟩
          replace hd : ((id, dict) :: t.worker.dicts).lookup id' = some dict' := hd
          rw [lookup_cons] at hd
          split at hd
          · next heq =>
            cases hd
            exact heq ▸ hs
          · exact h.dicts id' dict' hd
        | none =>
          cases createAc pattern with
          | error e => exact sameResult_answer ⟨h.req, h.rules, h.dicts⟩
          | ok dict =>
            refine sameResult_answer ⟨h.req, h.rules, fun id' dict' hd => ?_⟩
            replace hd : ((id, dict) :: t.worker.dicts).lookup id' = some dict' := hd
            show ((id, dict) :: s.worker.dicts).lookup id' = some dict'
            rw [lookup_cons] at hd ⊢
            split at hd
            · next heq => rwa [if_pos heq]
            · next hne =>
              rw [if_neg hne]
              exact h.dicts id' dict' hd
  · left
    simp only [not_forall] at hclean
    obtain ⟨dict, hc, hne⟩ := hclean
    obtain ⟨dicts, hd⟩ := operate_frame env (some .PM) collection pattern s
    rw [hd, hc]
    exact ⟨.consulted dict (createAc pattern), List.mem_cons_self, hne⟩

theorem lockstep_operate (operator : Option Operator) (collection : Val) (pattern : Option Val) :
    Lockstep Dirty Agree (operate env operator collection pattern) := by
  cases operator with
  | none => exact fun s t h => .inr ⟨rfl, h⟩
  | some operator =>
    by_cases hpm : operator = .PM
    · subst hpm
      exact lockstep_pm collection pattern
    · intro s t h
      right
      rw [operate_run, operate_run, h.req, lookup_dicts hpm s.worker.dicts t.worker.dicts,
        lookup_dicts hpm t.worker.dicts t.worker.dicts]
      exact sameResult_answer ⟨h.req, h.rules, h.dicts⟩

theorem PhaseStep.lockstep (h : PhaseStep env α m) : Lockstep Dirty Agree m := by
  intro s t ha
  cases h with
  | read => exact .inr ⟨ha.req, ha⟩
  | ruleAt place => exact .inr ⟨by rw [ha.rules], ha⟩
  | ruleCount ruleset phase => exact .inr ⟨by rw [ha.rules], ha⟩
  | @update f h =>
    refine .inr ⟨rfl, ?_, ha.rules, ha.dicts⟩
    show f s.req = f t.req
    rw [ha.req]
  | write h => exact lockstep_write _ s t ha
  | emit h => exact .inr ⟨rfl, ha.req, ha.rules, ha.dicts⟩
  | fetch transform var => exact lockstep_fetch transform var s t ha
  | operate operator collection pattern => exact lockstep_operate operator collection pattern s t ha
  | rekey place i key =>
    refine .inr ⟨rfl, ha.req, ?_, ha.dicts⟩
    show (s.worker.withKey place i key).rules = (t.worker.withKey place i key).rules
    simp only [Worker.withKey, ha.rules]

theorem ExecStep.keepsDirty (h : ExecStep env α m) : Keeps Dirty m := by
  cases h with
  | phase h => exact h.keepsDirty
  | resume | populate => exact keeps_dirty_write _
  | began => exact fun s hs => hs.emit _

theorem ExecStep.keepsIntact (h : ExecStep env α m) : Keeps (Intact rules) m := by
  cases h with
  | phase h => exact h.keepsIntact
  | resume | populate => exact keeps_intact_write _
  | began => exact fun s hs => hs.imp_left (·.emit _)

theorem ExecStep.lockstep (h : ExecStep env α m) : Lockstep Dirty Agree m := by
  cases h with
  | phase h => exact h.lockstep
  | resume | populate => exact lockstep_write _
  | began => exact fun s t h => .inr ⟨rfl, h.req, h.rules, h.dicts⟩

/-! ## Requests -/

theorem execAll_dirty : ∀ (calls : List Call) {s : State}, Dirty s → Dirty (execAll env calls s)
  | [], _, h => h
  | call :: calls, s, h => execAll_dirty calls ((built_exec _ call).keeps (fun h => h.keepsDirty) s h)

theorem execAll_intact : ∀ (calls : List Call) {s : State},
    Intact rules s → Intact rules (execAll env calls s)
  | [], _, h => h
  | call :: calls, s, h => execAll_intact calls ((built_exec _ call).keeps (fun h => h.keepsIntact) s h)

/-- Two clean runs of the same phases come out alike. -/
theorem execAll_agree : ∀ (calls : List Call) {s t : State}, Agree s t → ¬ Dirty (execAll env calls s) →
    execStops env calls s = execStops env calls t ∧ Agree (execAll env calls s) (execAll env calls t)
  | [], _, _, h, _ => ⟨rfl, h⟩
  | call :: calls, s, t, h, hclean => by
    rcases (built_exec env call).lockstep (fun h => h.keepsDirty) (fun h => h.lockstep) s t h with hd | hsame
    · exact absurd (execAll_dirty calls hd) hclean
    · have hstep : stopOf (exec env call s) = stopOf (exec env call t) ∧
          Agree (finalState (exec env call) s) (finalState (exec env call) t) := by
        unfold finalState
        cases hs : exec env call s <;> cases ht : exec env call t <;> simp only [hs, ht, SameResult] at hsame
        · exact ⟨rfl, hsame.2⟩
        · exact ⟨congrArg some hsame.1, hsame.2⟩
      obtain ⟨hstops, hagree⟩ := execAll_agree calls hstep.2 hclean
      exact ⟨by simp only [execStops, hstep.1, hstops], hagree⟩

theorem CleanRuns.append {ts us : List Transaction} : ∀ {w : Worker}, CleanRuns w (ts ++ us) →
    CleanRuns w ts ∧ CleanRuns (w.after ts) us := by
  induction ts with
  | nil => exact fun h => ⟨trivial, h⟩
  | cons t ts ih => exact fun h => ⟨⟨h.1, (ih h.2).1⟩, (ih h.2).2⟩

/-- Clean requests leave the rules. -/
theorem rules_after {rules : String → Phase → List Rule} : ∀ {ts : List Transaction} {w : Worker}, w.rules = rules →
    CleanRuns w ts → (w.after ts).rules = rules
  | [], _, h, _ => h
  | t :: ts, w, h, hclean => by
    have hrun : (t.run w).worker.rules = rules :=
      (execAll_intact t.calls (s := .begin w t.store) (.inr h)).resolve_left (not_dirty hclean.1)
    exact @rules_after rules ts _ hrun hclean.2

/-- **Clean requests are isolated: they leave the rules, and come out as in a
new worker.** -/
theorem isolated_of_cleanRuns {rules : String → Phase → List Rule} {history : List Transaction} {t : Transaction}
    (h : CleanRuns (.new rules) (history ++ [t])) : Isolated rules history t := by
  obtain ⟨hhistory, hrun, -⟩ := h.append
  have hrules := rules_after (w := .new rules) rfl hhistory
  have hagree : Agree (.begin ((Worker.new rules).after history) t.store) (.begin (.new rules) t.store) :=
    ⟨rfl, hrules, fun _ _ hd => (by cases hd)⟩
  obtain ⟨hstops, hend⟩ := execAll_agree t.calls hagree (not_dirty hrun)
  refine ⟨(execAll_intact t.calls (s := .begin _ t.store) (.inr hrules)).resolve_left (not_dirty hrun), ?_⟩
  exact Prod.ext hstops hend.req

/-! ## Examples -/

/-- A rule that counts requests under a name. -/
def countRule (key : String) : Rule :=
  { equalsRule 1 "METHOD" with
    pattern := some (.leaf (.str "GET"))
    actions := { disrupt := some .IGNORE, nondisrupt := [.setvar "TX" (.str key) (.num 1) true] } }

/-- A `GET` of a path. -/
def getTransaction (path : String) : Transaction where
  env := .default ["rules"]
  calls := [{ accessCall with
    server := fun name =>
      if name = "URI" then some (.leaf (.str path)) else if name = "METHOD" then some (.leaf
        (.str "GET")) else none }]
  store := .empty .dict

/-- A constant key stays. -/
theorem isolated_constantKey : Isolated (accessWorker [countRule "count"]).rules [getTransaction "/a"]
    (getTransaction "/b") :=
  isolated_of_cleanRuns ⟨by unfold CleanRun; decide +kernel, by unfold CleanRun; decide +kernel, trivial⟩

/-- A key made from the path is that of the first request for all that follow. -/
theorem not_isolated_parsedKey : ¬ ∀ (rules : String → Phase → List Rule) (history : List Transaction)
    (t : Transaction), Isolated rules history t := by
  intro h
  have hintact := (h (accessWorker [countRule "%{URI}"]).rules [] (getTransaction "/a")).intact
  have hkey := congrArg (fun rules => Worker.keyAt (.new rules) ⟨"rules", .access, 1⟩ 0) hintact
  revert hkey
  decide +kernel

end OpenResty.Waf
