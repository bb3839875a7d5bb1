/-
The primitive steps of a phase: everything `exec` does once the collections are
populated is built from them, so what they keep, the whole phase keeps.
-/
import OpenResty.Waf.Exec
import OpenResty.Lib.Program

namespace OpenResty.Waf

open Lua Lib

variable {env : Env}

/-! ## What a step does -/

theorem read_run (s : State) : read s = .ok s.req s := rfl

theorem emit_run (e : Event) (s : State) : emit e s = .ok () (s.emit e) := rfl

theorem update_run (f : Request → Request) (s : State) : update f s = .ok () (s.setReq (f s.req)) := rfl

variable {f : Request → Except String Request}

theorem write_ok {s : State} {r : Request} (h : f s.req = .ok r) : write f s = .ok () (s.wrote r) := by
  simp only [write, h]

theorem write_error {s : State} {e : String} (h : f s.req = .error e) : write f s = .error (.raised e) s := by
  simp only [write, h]

theorem fetch_frame {r r' : Request} {transform : Option TransformOpt} {var : Var} {c : Option Slot}
    (h : r.fetch env transform var = .ok (c, r')) : ∃ cache, r' = { r with transform := cache } := by
  unfold Request.fetch at h
  split at h
  · cases ht : r.transformed env (r.parsed env var) transform with
    | ok c =>
      rw [ht] at h
      cases h
      exact ⟨_, rfl⟩
    | error e => rw [ht] at h; cases h
  · cases h
    exact ⟨_, rfl⟩
  · cases h
    exact ⟨_, rfl⟩

theorem collectionOf_run (transform : Option TransformOpt) (var : Var) (s : State) :
    collectionOf env transform var s =
      if var.unconditional then .ok (some (.leaf (.bool true))) s
      else
        match s.req.fetch env transform var with
        | .ok (c, r) => .ok (handed s.req var c)
            ((s.setReq r).emit (.handed s.req transform var (handed s.req var c)))
        | .error e => .error (.raised e) s := by
  cases hu : var.unconditional with
  | true =>
    simp only [collectionOf, hu, if_true]
    rfl
  | false =>
    simp only [collectionOf, hu, Bool.false_eq_true, if_false]
    rw [bind_ok (read_run s)]
    cases hf : s.req.fetch env transform var with
    | error e => exact bind_error (by simp only [step, hf]) _
    | ok p =>
      obtain ⟨c, r⟩ := p
      rw [bind_ok (show step (fun r => r.fetch env transform var) s = .ok c (s.setReq r) by simp only [step, hf])]
      rfl

variable (env) in
/-- A variable is unconditional, its transforms raise, or it is handed what it fetches. -/
theorem collectionOf_cases (transform : Option TransformOpt) (var : Var) (s : State) :
    (var.unconditional = true ∧ collectionOf env transform var s = .ok (some (.leaf (.bool true))) s) ∨
    (var.unconditional = false ∧ ∃ e, s.req.fetch env transform var = .error e ∧
      collectionOf env transform var s = .error (.raised e) s) ∨
    (var.unconditional = false ∧ ∃ c r, s.req.fetch env transform var = .ok (c, r) ∧
      collectionOf env transform var s = .ok (handed s.req var c)
        ((s.setReq r).emit (.handed s.req transform var (handed s.req var c)))) := by
  rw [collectionOf_run]
  cases var.unconditional with
  | true => exact .inl ⟨rfl, rfl⟩
  | false =>
    cases s.req.fetch env transform var with
    | error e => exact .inr (.inl ⟨rfl, e, rfl, rfl⟩)
    | ok p => exact .inr (.inr ⟨rfl, p.1, p.2, rfl, rfl⟩)

/-- The kept dictionary an operator consults. -/
def consultedOf (operator : Option Operator) (s : State) : Option (List String) :=
  if operator = some .PM then s.req.id.bind (s.worker.dicts.lookup ·) else none

variable (env) in
/-- An operator changes the dictionaries only. -/
theorem operate_frame (operator : Option Operator) (collection : Val) (pattern : Option Val) (s : State) :
    ∃ dicts, finalState (operate env operator collection pattern) s =
      { s with
        worker := { s.worker with dicts }
        events := ((consultedOf operator s).map fun dict => Event.consulted dict (createAc pattern)).toList ++
          s.events } := by
  cases operator with
  | none => exact ⟨s.worker.dicts, rfl⟩
  | some operator =>
    simp only [finalState, operate, consultedOf, Option.some.injEq]
    cases lookup env.op s.worker.dicts { id := s.req.id, nameservers := env.nameservers } operator collection
      pattern with
    | mk result dicts =>
      refine ⟨dicts, ?_⟩
      cases result <;> rfl

/-! ## Programs built from steps -/

/-- A change of collections and storage alone. -/
def Collecting (f : Request → Except String Request) : Prop :=
  ∀ r r', f r = .ok r' → ∃ collections store, r' = { r with collections, store }

/-- A change of neither collections, tables, the cache, nor what the client gets. -/
structure Aside (f : Request → Request) : Prop where
  collections : ∀ r, (f r).collections = r.collections
  heap : ∀ r, (f r).store.heap = r.store.heap
  transform : ∀ r, (f r).transform = r.transform
  arg : ∀ r, (f r).arg = r.arg

/-- The events of a rule's turn. -/
def Event.ofTurn : Event → Bool
  | .turned _ _ | .matched _ | .acted _ _ | .logged _ | .disrupted _ _ => true
  | _ => false

/-- The primitive steps of a phase. -/
inductive PhaseStep (env : Env) : ∀ α : Type, M α → Prop
  | read : PhaseStep env Request read
  | ruleAt (place : Place) : PhaseStep env (Option Rule) (ruleAt place)
  | ruleCount (ruleset : String) (phase : Phase) : PhaseStep env Nat (ruleCount ruleset phase)
  | update {f : Request → Request} (h : Aside f) : PhaseStep env Unit (update f)
  | write {f : Request → Except String Request} (h : Collecting f) : PhaseStep env Unit (write f)
  | emit {e : Event} (h : e.ofTurn = true) : PhaseStep env Unit (emit e)
  | fetch (transform : Option TransformOpt) (var : Var) : PhaseStep env (Option Val) (collectionOf env transform var)
  | operate (operator : Option Operator) (collection : Val) (pattern : Option Val) :
    PhaseStep env Found (operate env operator collection pattern)
  | rekey (place : Place) (i : Nat) (key : Scalar) : PhaseStep env Unit (rekey place i key)

theorem built_attempt {α : Type} (x : Except String α) : Built (PhaseStep env) α (attempt x) := by
  cases x with
  | ok a => exact .pure a
  | error e => exact .throw _

theorem built_dynamic (key : Scalar) : Built (PhaseStep env) Scalar (dynamic key) :=
  .bind (.prim .read) fun _ => built_attempt _

theorem built_update {f : Request → Request} (h : Aside f) : Built (PhaseStep env) Unit (update f) :=
  .prim (.update h)

theorem built_write (h : Collecting f) :
    Built (PhaseStep env) Unit (write f) := .prim (.write h)

theorem collecting_store {f : Request → Except String Storage} :
    Collecting fun r => (f r).map r.withStore := by
  intro r r' h
  cases hf : f r with
  | ok store =>
    simp only [hf, Except.map, Except.ok.injEq] at h
    exact ⟨r.collections, store, h.symm⟩
  | error e => simp [hf, Except.map] at h

theorem collecting_set (name : String) (slot : Request → Option Slot) :
    Collecting fun r => .ok (r.setCollection name (slot r)) := by
  rintro r _ ⟨⟩
  exact ⟨_, r.store, rfl⟩

theorem collecting_index (name : String) (key : Request → Scalar) (value : Option Val) :
    Collecting fun r => r.setIndex name (key r) value := by
  intro r r' h
  simp only [Request.setIndex] at h
  split at h <;> first | (cases h; exact ⟨_, _, rfl⟩) | cases h

theorem built_persist : Built (PhaseStep env) Unit (persist env) := by
  refine .bind (.prim .read) fun r => .bind (.prim (.write ?_)) fun _ => ?_
  · rintro r _ ⟨⟩
    exact ⟨_, _, rfl⟩
  · split
    · exact .throw _
    · exact .pure ()

theorem built_writeLogEvents : Built (PhaseStep env) Unit (writeLogEvents env) := by
  refine .prim (.update ⟨?_, ?_, ?_, ?_⟩) <;> intro r <;> split <;> rfl

theorem built_finalize (phase : Phase) : Built (PhaseStep env) Unit (finalize env phase) :=
  .bind built_persist fun _ =>
    .bind (.prim (.update ⟨fun _ => rfl, fun _ => rfl, fun _ => rfl, fun _ => rfl⟩)) fun _ =>
      .ite built_writeLogEvents (.pure _)

/-! ## Actions -/

theorem built_exit (phase : Phase) (status : Rat) : Built (PhaseStep env) Unit (exit phase status) := by
  cases phase with
  | access => exact .throw _
  | header_filter =>
    simp only [exit]
    exact built_update ⟨fun _ => rfl, fun _ => rfl, fun _ => rfl, fun _ => rfl⟩
  | body_filter => exact .throw _
  | log => exact .throw _

theorem built_disruptive (phase : Phase) (action : Disrupt) :
    Built (PhaseStep env) Unit (disruptive env phase action) := by
  refine .bind (.prim .read) fun r => .ite ?_ (.pure _)
  cases action with
  | ACCEPT | DENY | DROP => exact built_exit _ _
  | CHAIN | IGNORE | SCORE => exact .pure _

theorem built_ruleAction (place : Place) (action : Option Disrupt) :
    Built (PhaseStep env) Unit (ruleAction env place action) := by
  cases action with
  | none => exact .pure _
  | some action =>
    have hrest : Built (PhaseStep env) Unit (do emit (.disrupted place action); disruptive env place.phase action) :=
      .bind (.prim (.emit rfl)) fun _ => built_disruptive _ _
    refine .ite (.bind (.prim (.update ?_)) fun _ => .bind (built_finalize _) fun _ => hrest) hrest
    exact ⟨fun _ => rfl, fun _ => rfl, fun _ => rfl, fun _ => rfl⟩

theorem built_nondisruptive (now : Rat) (place : Place) (i : Nat) (action : NonDisrupt) :
    Built (PhaseStep env) Unit (nondisruptive env now place i action) := by
  cases action with
  | deletevar col key =>
    simp only [nondisruptive]
    exact built_write collecting_store
  | expirevar col key time => exact .bind (built_dynamic _) fun _ => built_write collecting_store
  | initcol col value =>
    refine .bind (built_dynamic _) fun parsed => built_write fun r r' h => ?_
    cases hs : r.store.initializeCol now parsed with
    | ok store =>
      simp only [hs] at h
      cases h
      exact ⟨_, _, rfl⟩
    | error e => rw [hs] at h; cases h
  | setvar col key value inc =>
    exact .bind (built_dynamic _) fun _ => .bind (.prim (.rekey ..)) fun _ =>
      .bind (built_dynamic _) fun _ => built_write collecting_store
  | sleep time => exact .ite (.pure _) (.throw _)
  | status _ | rule_remove_id _ | rule_remove_by_meta | mode_update _ =>
    simp only [nondisruptive]
    exact built_update ⟨fun _ => rfl, fun _ => rfl, fun _ => rfl, fun _ => rfl⟩

theorem built_nondisruptiveFrom (now : Rat) (place : Place) : ∀ (i : Nat) (actions : List NonDisrupt),
    Built (PhaseStep env) Unit (nondisruptiveFrom env now place i actions)
  | _, [] => .pure _
  | i, action :: actions => .bind (.prim (.emit rfl)) fun _ => .bind (built_nondisruptive now place i action) fun _ =>
    built_nondisruptiveFrom now place (i + 1) actions

/-! ## Rules -/

theorem built_dynamicText (text : Option String) : Built (PhaseStep env) (Option Scalar) (dynamicText text) := by
  cases text with
  | none => exact .pure _
  | some text => exact .bind (built_dynamic _) fun _ => .pure _

theorem built_logEvent (place : Place) (rule : Rule) (value : Option Val) :
    Built (PhaseStep env) Unit (logEvent place rule value) :=
  .bind (built_dynamicText _) fun _ => .bind (built_dynamicText _) fun _ => .bind (.prim (.emit rfl)) fun _ =>
    .prim (.update ⟨fun _ => rfl, fun _ => rfl, fun _ => rfl, fun _ => rfl⟩)

theorem built_dynamicPattern (rule : Rule) (pattern : Option Val) :
    Built (PhaseStep env) (Option Val) (dynamicPattern rule pattern) := by
  refine .ite ?_ (.pure _)
  split
  · exact .bind (built_dynamic _) fun _ => .pure _
  · exact .throw _

theorem built_setTX : ∀ l : List (Scalar × Option Val), Built (PhaseStep env) Unit (setTX l)
  | [] => .pure _
  | (key, value) :: rest =>
    .bind (built_write (collecting_index "TX" (fun _ => key) value)) fun _ => built_setTX rest

theorem built_storeMatch (rule : Rule) (var : Var) (value : Option Val) :
    Built (PhaseStep env) Unit (storeMatch rule var value) := by
  have hrule : Built (PhaseStep env) Unit (write fun r => .ok (r.setCollection "RULE" (some (.val rule.toVal)))) :=
    built_write (collecting_set "RULE" fun _ => _)
  have hTX : Built (PhaseStep env) Unit (do
      if !rule.op_negated then setTX (← attempt (captures rule value))
      write fun r => .ok (r.setCollection "RULE" (some (.val rule.toVal)))) :=
    .ite (.bind (built_attempt _) fun _ => .bind (built_setTX _) fun _ => hrule) hrule
  refine .bind (built_write (collecting_set "MATCHED_VAR" fun _ => _)) fun _ =>
    .bind (built_write (collecting_set "MATCHED_VAR_NAME" fun _ => _)) fun _ => .ite ?_ hTX
  refine .bind (built_write (collecting_index "MATCHED_VARS" _ _)) fun _ =>
    .bind (built_write (collecting_index "MATCHED_VAR_NAMES" _ _)) fun _ => .bind (.prim (.update ?_)) fun _ => hTX
  exact ⟨fun _ => rfl, fun _ => rfl, fun _ => rfl, fun _ => rfl⟩

theorem built_matchRule (now : Rat) (place : Place) (rule : Rule) (var : Var) (value : Option Val) :
    Built (PhaseStep env) Unit (matchRule env now place rule var value) :=
  .bind (.prim (.emit rfl)) fun _ => .bind (built_storeMatch ..) fun _ => .bind (built_nondisruptiveFrom ..) fun _ =>
    .ite (.bind (built_logEvent ..) fun _ => built_ruleAction ..) (built_ruleAction ..)

theorem built_processVars (now : Rat) (place : Place) (rule : Rule) : ∀ (vars : List Var) (pattern : Option Val)
    (offset : Option Nat), Built (PhaseStep env) (Option Nat) (processVars env now place rule pattern offset vars)
  | [], _, _ => .pure _
  | var :: vars, pattern, offset => by
    refine .bind (.prim (.fetch ..)) fun collection => ?_
    split
    · exact built_processVars now place rule vars _ _
    · exact built_processVars now place rule vars _ _
    · refine .bind (built_dynamicPattern ..) fun pattern => .bind (.ite (.pure _) (.prim (.operate ..))) ?_
      rintro ⟨found, value⟩
      exact .ite (.bind (built_matchRule ..) fun _ => .pure _) (built_processVars now place rule vars _ _)

theorem built_processRule (now : Rat) (place : Place) (rule : Rule) :
    Built (PhaseStep env) (Option Nat) (processRule env now place rule) := by
  refine .bind (.prim (.update ⟨fun _ => rfl, fun _ => rfl, fun _ => rfl, fun _ => rfl⟩)) fun _ => ?_
  split
  · exact .throw _
  · exact built_processVars ..

/-! ## Phases -/

theorem built_turn (now : Rat) (place : Place) (rule : Rule) :
    Built (PhaseStep env) (Option Nat) (turn env now place rule) :=
  .bind (.prim .read) fun _ => .bind (.prim (.emit rfl)) fun _ => .ite (.pure _) (built_processRule ..)

theorem built_ruleLoop (now : Rat) (ruleset : String) (phase : Phase) : ∀ (fuel pos : Nat),
    Built (PhaseStep env) Unit (ruleLoop env now ruleset phase fuel pos)
  | 0, _ => .throw _
  | fuel + 1, pos => by
    refine .bind (.prim (.ruleAt _)) fun rule => ?_
    cases rule with
    | none => exact .pure _
    | some rule =>
      refine .bind (built_turn ..) fun offset => ?_
      cases offset with
      | none => exact .pure _
      | some offset => exact built_ruleLoop now ruleset phase fuel (pos + offset)

theorem built_runRulesets (now : Rat) (phase : Phase) : ∀ rulesets : List String,
    Built (PhaseStep env) Unit (runRulesets env now phase rulesets)
  | [] => .pure _
  | _ :: rulesets => .bind (.prim (.ruleCount ..)) fun _ => .bind (built_ruleLoop ..) fun _ =>
    built_runRulesets now phase rulesets

theorem built_setVars : ∀ l : List (Scalar × Scalar), Built (PhaseStep env) Unit (setVars l)
  | [] => .pure _
  | _ :: rest => .bind (built_dynamic _) fun _ => .bind (built_write collecting_store) fun _ => built_setVars rest

/-- The primitive steps of `exec`. -/
inductive ExecStep (env : Env) : ∀ α : Type, M α → Prop
  | phase {α : Type} {m : M α} (h : PhaseStep env α m) : ExecStep env α m
  | resume : ExecStep env Unit (resume env)
  | populate (call : Call) : ExecStep env Unit (write fun r => r.populate env call)
  | began (phase : Phase) (body : Option Val) : ExecStep env Unit (emit (.began phase body))

theorem inExec {α : Type} {m : M α} (h : Built (PhaseStep env) α m) : Built (ExecStep env) α m :=
  h.mono fun h => .prim (.phase h)

theorem aside_trackAnew : Aside Request.trackAnew := by
  refine ⟨?_, ?_, ?_, ?_⟩ <;> intro r <;> unfold Request.trackAnew <;> split <;> rfl

theorem built_runPhase (call : Call) : Built (ExecStep env) Unit (runPhase env call) :=
  .bind (inExec (built_setVars _)) fun _ => .bind (inExec (built_update aside_trackAnew)) fun _ =>
    .bind (.prim (.phase .read)) fun _ => .bind (.prim (.began ..)) fun _ =>
      .bind (inExec (built_runRulesets ..)) fun _ => inExec (built_finalize _)

variable (env) in
theorem built_exec (call : Call) : Built (ExecStep env) Unit (exec env call) := by
  have hinit : Built (PhaseStep env) Unit (update Request.initTX) :=
    built_update ⟨fun _ => rfl, fun _ => rfl, fun _ => rfl, fun _ => rfl⟩
  refine .bind (.prim .resume) fun _ => .bind (.prim (.phase .read)) fun r => .ite (.pure _) ?_
  refine .bind (inExec hinit) fun _ => .ite (inExec (.ite built_writeLogEvents (.pure _))) ?_
  exact .bind (.prim (.populate call)) fun _ => .bind (.prim (.phase .read)) fun _ =>
    .ite (.pure _) (built_runPhase call)

end OpenResty.Waf
