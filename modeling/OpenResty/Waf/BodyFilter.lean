/-
The body filter over the chunks of a response.

Every chunk but the last sets the flag that ends `exec` early, and nothing takes
it back: unless the body comes as one chunk, its rules are not evaluated at all,
nor are those of the log phase.
-/
import OpenResty.Waf.ExecSteps

namespace OpenResty.Waf

open Lua Lib

variable (env : Env)

/-! ## Delivery -/

/-- The call of `exec` for a chunk that is due at `now`. -/
def bodyCall (now : Rat) (chunk : String) (eof : Bool) : Call :=
  { phase := .body_filter, collections := none, server := fun _ => none, now, data := some chunk, eof }

def logCall (now : Rat) : Call :=
  { phase := .log, collections := none, server := fun _ => none, now, data := none, eof := false }

def Request.offered (r : Request) (chunk : String) : Request := { r with arg := some chunk }

/-- The body filter is called chunk by chunk; what the client receives of each. -/
def deliver : List (Rat × String) → M (List String)
  | [] => pure []
  | (now, chunk) :: chunks => do
    update fun r => r.offered chunk
    exec env (bodyCall now chunk chunks.isEmpty)
    let sent := ((← read).arg).getD ""
    return sent :: (← deliver chunks)

def wholeBody (chunks : List (Rat × String)) : String := String.join (chunks.map Prod.snd)

/-- The phases begun, the last one first, with the body each was given. -/
def begun : List Event → List (Phase × Option Val)
  | [] => []
  | .began phase body :: events => (phase, body) :: begun events
  | _ :: events => begun events

/-- The state after the log phase that follows a delivery. -/
def afterLog (logged_at : Rat) (chunks : List (Rat × String)) (s : State) : State :=
  finalState (exec env (logCall logged_at)) (finalState (deliver env chunks) s)

/-- The body filter's rules are gone through once, on the whole body; the client
receives the whole body unless the run stops; and the log phase is as after
the same body in one chunk. -/
structure FiltersWhole (chunks : List (Rat × String)) (s : State) : Prop where
  once : begun (finalState (deliver env chunks) s).events =
    (.body_filter, some (.leaf (.str (wholeBody chunks)))) :: begun s.events
  received : ∀ sent s', deliver env chunks s = .ok sent s' → String.join sent = wholeBody chunks
  later : ∀ now logged_at, chunks.getLast?.map Prod.fst = some now →
    begun (afterLog env logged_at chunks s).events = begun
      (afterLog env logged_at [(now, wholeBody chunks)] s).events ∧
    (afterLog env logged_at chunks s).req.log_events =
      (afterLog env logged_at [(now, wholeBody chunks)] s).req.log_events

/-- A response that is to be looked at, before its first chunk. -/
structure Awaiting (r : Request) : Prop where
  saved : r.saved = true
  inspected : r.inspected env = .ok true
  short_circuit : r.short_circuit = false
  buffers : r.buffers = none

/-- The request as its one chunk leaves it for the variables given with `set_var`. -/
def Request.filled (r : Request) (body : String) : Request :=
  { (r.initTX.setCollection "RESPONSE_BODY" (some (.val (.leaf (.str body))))) with
    buffers := some [body], arg := some body }

/-- The firewall runs: it is not inactive, the transaction has not been altered
already, and the variables given with `set_var` expand. -/
structure Running (s : State) (body : String) : Prop where
  active : s.req.mode ≠ .INACTIVE
  unaltered : ¬ (s.req.altered = true ∧ s.req.mode = .ACTIVE)
  vars : ∃ s', setVars env.var (s.setReq (s.req.filled body)) = .ok () s'

/-! ## Steps of exec -/

variable {env}

variable {s s' : State}

theorem resume_saved (h : s.req.saved = true) : resume env s = .ok () (s.wrote s.req) :=
  write_ok (by rw [h]; rfl)

/-- The run of a saved request that neither is inactive nor was altered. -/
def execRunning (env : Env) (call : Call) : M Unit := do
  write fun r => r.populate env call
  if (← read).short_circuit then return
  runPhase env call

variable {call : Call}

theorem exec_inactive (hs : s.req.saved = true) (h : s.req.mode = .INACTIVE) :
    exec env call s = .ok () (s.wrote s.req) := by
  rw [exec, bind_ok (resume_saved hs), bind_ok (read_run _), State.wrote_req, if_pos h]
  rfl

theorem exec_altered (hs : s.req.saved = true) (hi : s.req.mode ≠ .INACTIVE)
    (h : s.req.altered = true ∧ s.req.mode = .ACTIVE) :
    exec env call s =
      (if call.phase = .log then writeLogEvents env else pure ()) ((s.wrote s.req).setReq s.req.initTX) := by
  rw [exec, bind_ok (resume_saved hs), bind_ok (read_run _), State.wrote_req, if_neg hi,
    bind_ok (update_run _ _), if_pos h]
  split <;> rfl

theorem exec_running (hs : s.req.saved = true) (hi : s.req.mode ≠ .INACTIVE)
    (h : ¬ (s.req.altered = true ∧ s.req.mode = .ACTIVE)) :
    exec env call s = execRunning env call ((s.wrote s.req).setReq s.req.initTX) := by
  rw [exec, bind_ok (resume_saved hs), bind_ok (read_run _), State.wrote_req, if_neg hi,
    bind_ok (update_run _ _), if_neg h]
  rfl

variable {r : Request}

theorem execRunning_short (h : s.req.populate env call = .ok r)
    (hshort : r.short_circuit = true) : execRunning env call s = .ok () (s.wrote r) := by
  rw [execRunning, bind_ok (write_ok h), bind_ok (read_run _), State.wrote_req, if_pos hshort]
  rfl

theorem execRunning_on (h : s.req.populate env call = .ok r)
    (hshort : r.short_circuit = false) : execRunning env call s = runPhase env call (s.wrote r) := by
  rw [execRunning, bind_ok (write_ok h), bind_ok (read_run _), State.wrote_req, hshort]
  rfl

/-! ## What a phase keeps -/

/-- The steps of a phase begin no phase, and leave what the client gets. -/
theorem PhaseStep.keeps {α : Type} {m : M α} (h : PhaseStep env α m) (b : List (Phase × Option Val))
    (arg : Option String) : Keeps (fun s => begun s.events = b ∧ s.req.arg = arg) m := by
  intro s hs
  cases h with
  | read | ruleAt | ruleCount => exact hs
  | update h => exact ⟨hs.1, (h.arg _).trans hs.2⟩
  | @write f h =>
    cases hf : f s.req with
    | ok r =>
      rw [finalState_ok (write_ok hf)]
      obtain ⟨collections, store, rfl⟩ := h _ _ hf
      exact hs
    | error e => rwa [finalState_error (write_error hf)]
  | @emit e h =>
    refine ⟨?_, hs.2⟩
    show begun (e :: s.events) = b
    cases e <;> first | exact hs.1 | cases h
  | fetch transform var =>
    rcases collectionOf_cases env transform var s with ⟨-, h⟩ | ⟨-, e, -, h⟩ | ⟨-, c, r, hr, h⟩
    · rwa [finalState_ok h]
    · rwa [finalState_error h]
    · obtain ⟨cache, rfl⟩ := fetch_frame hr
      rwa [finalState_ok h]
  | operate operator collection pattern =>
    obtain ⟨dicts, hd⟩ := operate_frame env operator collection pattern s
    rw [hd]
    refine ⟨?_, hs.2⟩
    cases consultedOf operator s with
    | none => exact hs.1
    | some dict => exact hs.1
  | rekey place i key => exact hs

theorem keeps_phase {phase : Phase} {now : Rat} {rulesets : List String} (b : List (Phase × Option Val))
    (arg : Option String) :
    Keeps (fun s => begun s.events = b ∧ s.req.arg = arg)
      (do runRulesets env now phase rulesets; finalize env phase) :=
  (Built.bind (built_runRulesets now phase rulesets) fun _ => built_finalize phase).keeps fun h => h.keeps b arg

/-- The variables given with `set_var` go to the storage only. -/
theorem setVars_keeps (b : List (Phase × Option Val)) (arg : Option String) (c : List (String × Slot)) :
    ∀ l : List (Scalar × Scalar),
      Keeps (fun s => begun s.events = b ∧ s.req.arg = arg ∧ s.req.collections = c) (setVars l)
  | [] => .pure _ _
  | (key, value) :: rest => by
    refine .bind ?_ fun value => .bind ?_ fun _ => setVars_keeps b arg c rest
    · intro s hs
      simp only [finalState, dynamic]
      rw [bind_ok (show read s = .ok s.req s from rfl)]
      cases parseDynamicValue s.req.collection value <;> exact hs
    · intro s hs
      cases hf : s.req.store.set_var "TX" key false value with
      | ok store => rwa [finalState_ok (write_ok (by rw [hf]; rfl))]
      | error e => rwa [finalState_error (write_error (by rw [hf]; rfl))]

/-- Whether they expand depends on the request only. -/
theorem setVars_congr : ∀ (l : List (Scalar × Scalar)),
    Lockstep (fun _ => False) (fun s t : State => s.req = t.req) (setVars l)
  | [] => fun _ _ h => .inr ⟨rfl, h⟩
  | (key, value) :: rest => by
    refine .bind ?_ (fun value => .bind ?_ (fun _ => setVars_congr rest) fun _ _ h => h) fun _ _ h => h
    · intro s t h
      right
      simp only [dynamic]
      rw [bind_ok (show read s = .ok s.req s from rfl), bind_ok (show read t = .ok t.req t from rfl), h]
      cases parseDynamicValue t.req.collection value <;> exact ⟨rfl, h⟩
    · intro s t h
      right
      cases hf : t.req.store.set_var "TX" key false value with
      | ok store =>
        rw [write_ok (by rw [h, hf]; rfl), write_ok (by rw [hf]; rfl)]
        exact ⟨rfl, rfl⟩
      | error e =>
        rw [write_error (by rw [h, hf]; rfl), write_error (by rw [hf]; rfl)]
        exact ⟨rfl, h⟩

/-- A phase begins once its variables are set, and then no more. -/
theorem runPhase_begun (call : Call) {v : Val} (hvars : setVars env.var s = .ok () s')
    (hbody : s.req.collections.lookup "RESPONSE_BODY" = some (.val v)) :
    begun (finalState (runPhase env call) s).events = (call.phase, some v) :: begun s.events ∧
      (finalState (runPhase env call) s).req.arg = s.req.arg := by
  obtain ⟨hb, harg, hc⟩ := setVars_keeps (begun s.events) s.req.arg s.req.collections env.var s ⟨rfl, rfl, rfl⟩
  rw [finalState_ok hvars] at hb harg hc
  have hv : s'.req.trackAnew.collection "RESPONSE_BODY" = some v := by
    simp only [Request.collection, aside_trackAnew.collections, hc, hbody]
    rfl
  rw [runPhase, finalState, bind_ok hvars, bind_ok (update_run _ _), bind_ok (read_run _), bind_ok (emit_run _ _)]
  rw [State.setReq_req, hv]
  exact keeps_phase ((call.phase, some v) :: begun s.events) s.req.arg _
    ⟨congrArg _ hb, (aside_trackAnew.arg _).trans harg⟩

theorem runPhase_stopped {e : Stop} (hvars : setVars env.var s = .error e s') :
    begun (finalState (runPhase env call) s).events = begun s.events := by
  obtain ⟨hb, -⟩ := setVars_keeps (begun s.events) s.req.arg s.req.collections env.var s ⟨rfl, rfl, rfl⟩
  rw [finalState_error hvars] at hb
  rwa [runPhase, finalState_error (bind_error hvars _)]

/-! ## Chunks -/

/-- The firewall passes the rest of the body: it does not run, or its flag is set. -/
def Idle (r : Request) : Prop :=
  r.mode = .INACTIVE ∨ (r.altered = true ∧ r.mode = .ACTIVE) ∨ r.short_circuit = true

theorem populate_chunk (h : r.inspected env = .ok true) (now : Rat) (chunk : String) :
    r.populate env (bodyCall now chunk false) =
      .ok { r with buffers := some (r.buffers.getD [] ++ [chunk]), arg := none, short_circuit := true } := by
  have hi : ({ r with buffers := some (r.buffers.getD []) } : Request).inspected env = .ok true := h
  simp only [Request.populate, bodyCall, Request.body, hi]
  rfl

theorem populate_last (h : r.inspected env = .ok true) (now : Rat) (chunk : String) :
    r.populate env (bodyCall now chunk true) =
      .ok { (r.setCollection "RESPONSE_BODY" (some (.val (.leaf (.str (String.join (r.buffers.getD [] ++ [chunk]))))))) with
        buffers := some (r.buffers.getD [] ++ [chunk])
        arg := some (String.join (r.buffers.getD [] ++ [chunk])) } := by
  have hi : ({ r with buffers := some (r.buffers.getD []) } : Request).inspected env = .ok true := h
  simp only [Request.populate, bodyCall, Request.body, hi]
  rfl

theorem populate_whole (h : Awaiting env r) (now : Rat) (chunk : String) :
    r.initTX.populate env (bodyCall now chunk true) = .ok (r.filled chunk) := by
  have hb : r.initTX.buffers.getD [] ++ [chunk] = [chunk] := by
    show r.buffers.getD [] ++ [chunk] = [chunk]
    rw [h.buffers]
    rfl
  rw [populate_last (r := r.initTX) h.inspected, hb, show String.join [chunk] = chunk by simp [String.join]]
  rfl

/-- A chunk that is not the last, or any when the firewall is idle, begins no phase. -/
theorem exec_chunk (now : Rat) (chunk : String) {eof : Bool} (hs : s.req.saved = true)
    (hi : s.req.inspected env = .ok true) (h : eof = false ∨ Idle s.req) :
    ∃ s', exec env (bodyCall now chunk eof) s = .ok () s' ∧ begun s'.events = begun s.events ∧
      (eof = false → s'.req.saved = true ∧ s'.req.inspected env = .ok true ∧ Idle s'.req) := by
  by_cases hmode : s.req.mode = .INACTIVE
  · exact ⟨_, exec_inactive hs hmode, rfl, fun _ => ⟨hs, hi, .inl hmode⟩⟩
  by_cases halt : s.req.altered = true ∧ s.req.mode = .ACTIVE
  · exact ⟨_, exec_altered hs hmode halt, rfl, fun _ => ⟨hs, hi, .inr (.inl halt)⟩⟩
  have hi' : s.req.initTX.inspected env = .ok true := hi
  rw [exec_running hs hmode halt]
  cases eof with
  | false =>
    exact ⟨_, execRunning_short (populate_chunk hi' now chunk) rfl, rfl, fun _ => ⟨hs, hi, .inr (.inr rfl)⟩⟩
  | true =>
    have hshort : s.req.short_circuit = true :=
      ((h.resolve_left Bool.noConfusion).resolve_left hmode).resolve_left halt
    exact ⟨_, execRunning_short (populate_last hi' now chunk) hshort, rfl, Bool.noConfusion⟩

/-- With an idle firewall nothing is begun for what is left of the body. -/
theorem deliver_idle : ∀ {chunks : List (Rat × String)} {s : State}, s.req.saved = true →
    s.req.inspected env = .ok true → (2 ≤ chunks.length ∨ Idle s.req) →
    begun (finalState (deliver env chunks) s).events = begun s.events
  | [], _, _, _, _ => rfl
  | (now, chunk) :: chunks, s, hs, hi, h => by
    have hor : chunks.isEmpty = false ∨ Idle s.req := h.imp_left fun h => by
      cases chunks with
      | nil => simp at h
      | cons => rfl
    obtain ⟨s', hexec, hb, hidle⟩ :=
      exec_chunk (s := s.setReq (s.req.offered chunk)) now chunk hs hi hor
    have hrest : begun (finalState (deliver env chunks) s').events = begun s.events := by
      cases chunks with
      | nil => exact hb
      | cons c chunks =>
        obtain ⟨hs', hi', hidle⟩ := hidle rfl
        rw [deliver_idle hs' hi' (.inr hidle), hb]
        rfl
    rw [deliver, finalState, bind_ok (update_run _ _), bind_ok hexec, bind_ok (read_run _)]
    rcases finalState_bind (deliver env chunks) (fun rest => pure (s'.req.arg.getD "" :: rest)) s' with
      ⟨a, ha, -⟩ | ⟨e, he, -⟩
    · rw [bind_ok ha]
      exact hrest
    · rw [bind_error he]
      exact hrest

/-- The run of the phase on a body of one chunk. -/
theorem exec_whole (h : Awaiting env s.req) (hi : s.req.mode ≠ .INACTIVE)
    (halt : ¬ (s.req.altered = true ∧ s.req.mode = .ACTIVE)) (now : Rat) (chunk : String) :
    ∃ s', s'.req = s.req.filled chunk ∧ begun s'.events = begun s.events ∧
      exec env (bodyCall now chunk true) s = runPhase env (bodyCall now chunk true) s' := by
  have hrun := execRunning_on (s := (s.wrote s.req).setReq s.req.initTX) (populate_whole h now chunk) h.short_circuit
  exact ⟨((s.wrote s.req).setReq s.req.initTX).wrote (s.req.filled chunk), rfl, rfl,
    (exec_running h.saved hi halt).trans hrun⟩

theorem deliver_single (now : Rat) (chunk : String) (s : State) :
    deliver env [(now, chunk)] s =
      match exec env (bodyCall now chunk true) (s.setReq (s.req.offered chunk)) with
      | .ok _ s' => .ok [s'.req.arg.getD ""] s'
      | .error e s' => .error e s' := by
  rw [deliver, bind_ok (update_run _ _)]
  cases h : exec env (bodyCall now chunk true) (s.setReq (s.req.offered chunk)) with
  | ok a s' =>
    rw [bind_ok (show exec env (bodyCall now chunk [].isEmpty) _ = _ from h)]
    rfl
  | error e s' => rw [bind_error (show exec env (bodyCall now chunk [].isEmpty) _ = _ from h)]

theorem finalState_single (now : Rat) (chunk : String) (s : State) :
    finalState (deliver env [(now, chunk)]) s =
      finalState (exec env (bodyCall now chunk true)) (s.setReq (s.req.offered chunk)) := by
  simp only [finalState, deliver_single]
  cases exec env (bodyCall now chunk true) (s.setReq (s.req.offered chunk)) <;> rfl

theorem wholeBody_single (now : Rat) (chunk : String) : wholeBody [(now, chunk)] = chunk := by
  simp [wholeBody, String.join]

theorem Awaiting.offered (h : Awaiting env r) (chunk : String) : Awaiting env (r.offered chunk) :=
  ⟨h.saved, h.inspected, h.short_circuit, h.buffers⟩

variable {chunk : String}

/-- The variables expand whatever has happened before. -/
theorem Running.setVars (h : Running env s chunk) (hs : s'.req = s.req.filled chunk) :
    ∃ s'', Waf.setVars env.var s' = .ok () s'' := by
  obtain ⟨s₁, hvars⟩ := h.vars
  have hsame := (setVars_congr env.var (s.setReq (s.req.filled chunk)) s' hs.symm).resolve_left id
  rw [hvars] at hsame
  cases hv : Waf.setVars env.var s' with
  | ok a s'' => exact ⟨s'', rfl⟩
  | error e s'' => rw [hv] at hsame; exact hsame.elim

theorem filtersWhole_single (h : Awaiting env s.req) {now : Rat}
    (hr : Running env s chunk) : FiltersWhole env [(now, chunk)] s := by
  obtain ⟨s', hreq, hevents, hexec⟩ := exec_whole (s := s.setReq (s.req.offered chunk)) (h.offered chunk) hr.active
    hr.unaltered now chunk
  obtain ⟨s'', hvars⟩ := hr.setVars hreq
  have hbody : s'.req.collections.lookup "RESPONSE_BODY" = some (.val (.leaf (.str chunk))) := by
    simp [hreq, Request.filled, Request.setCollection]
  obtain ⟨hb, harg⟩ := runPhase_begun (bodyCall now chunk true) hvars hbody
  refine ⟨?_, fun sent t hd => ?_, fun now' _ hnow => ?_⟩
  · rw [finalState_single, wholeBody_single, finalState, hexec]
    exact hb.trans (congrArg _ hevents)
  · rw [deliver_single, hexec] at hd
    cases hrun : runPhase env (bodyCall now chunk true) s' with
    | ok a t' =>
      rw [finalState_ok hrun, hreq] at harg
      simp only [hrun, EStateM.Result.ok.injEq] at hd
      rw [← hd.1, harg, wholeBody_single]
      simp [Request.filled, String.join]
    | error e t' => simp only [hrun, reduceCtorEq] at hd
  · cases hnow
    rw [wholeBody_single]
    exact ⟨rfl, rfl⟩

/-- One chunk for which the firewall does not run begins no phase. -/
theorem single_stopped (h : Awaiting env s.req) {now : Rat}
    (hr : ¬ Running env s chunk) :
    begun (finalState (deliver env [(now, chunk)]) s).events = begun s.events := by
  by_cases hmode : s.req.mode = .INACTIVE
  · exact deliver_idle h.saved h.inspected (.inr (.inl hmode))
  by_cases halt : s.req.altered = true ∧ s.req.mode = .ACTIVE
  · exact deliver_idle h.saved h.inspected (.inr (.inr (.inl halt)))
  obtain ⟨s', hreq, hevents, hexec⟩ := exec_whole (s := s.setReq (s.req.offered chunk)) (h.offered chunk) hmode halt
    now chunk
  rw [finalState_single, finalState, hexec]
  cases hvars : setVars env.var s' with
  | error e s'' => exact (runPhase_stopped hvars).trans hevents
  | ok a s'' =>
    refine absurd ⟨hmode, halt, ?_⟩ hr
    have hsame := (setVars_congr env.var s' (s.setReq (s.req.filled chunk)) hreq).resolve_left id
    rw [hvars] at hsame
    cases hv : setVars env.var (s.setReq (s.req.filled chunk)) with
    | ok a t => exact ⟨t, rfl⟩
    | error e t => rw [hv] at hsame; exact hsame.elim

/-- **The whole body is filtered exactly when it comes as one chunk, while the
firewall runs.** -/
theorem filtersWhole_iff {s : State} {chunks : List (Rat × String)} (h : Awaiting env s.req) (hne : chunks ≠ []) :
    FiltersWhole env chunks s ↔ chunks.length = 1 ∧ Running env s (wholeBody chunks) := by
  cases chunks with
  | nil => exact absurd rfl hne
  | cons c chunks =>
    obtain ⟨now, chunk⟩ := c
    have hno : ∀ {cs}, begun (finalState (deliver env cs) s).events = begun s.events → ¬ FiltersWhole env cs s :=
      fun hb hf => by
        have := hf.once
        rw [hb] at this
        exact List.cons_ne_self _ _ this.symm
    cases chunks with
    | nil =>
      rw [wholeBody_single]
      refine ⟨fun hf => ⟨rfl, ?_⟩, fun hr => filtersWhole_single h hr.2⟩
      by_contra hr
      exact hno (single_stopped h hr) hf
    | cons c chunks =>
      refine ⟨fun hf => absurd hf (hno ?_), fun hr => ?_⟩
      · exact deliver_idle h.saved h.inspected (.inl (by simp))
      · simp at hr

/-- A saved request whose response declares two bytes of text. -/
def twoBytes : State where
  worker := { rules := fun _ _ => [], dicts := [] }
  req := { Request.new (.empty .dict) with
    saved := true
    collections := [("RESPONSE_HEADERS", .val (.table [] [(.str "content-length", .leaf (.str "2")),
      (.str "content-type", .leaf (.str "text/plain"))]))] }
  events := []

theorem awaiting_twoBytes : Awaiting (.default []) twoBytes.req where
  saved := rfl
  inspected := by decide +kernel
  short_circuit := rfl
  buffers := rfl

theorem running_twoBytes (body : String) : Running (.default []) twoBytes body where
  active := by decide
  unaltered := by decide
  vars := ⟨_, rfl⟩

/-- In one chunk its body is filtered. -/
theorem filtersWhole_twoBytes : FiltersWhole (.default []) [(0, "ok")] twoBytes :=
  (filtersWhole_iff awaiting_twoBytes (List.cons_ne_nil _ _)).mpr ⟨rfl, running_twoBytes _⟩

/-- In two it is not. -/
theorem not_filtersWhole_twoChunks : ¬ FiltersWhole (.default []) [(0, "o"), (0, "k")] twoBytes := by
  intro h
  have hb : begun (finalState (deliver (.default []) [(0, "o"), (0, "k")]) twoBytes).events = begun twoBytes.events :=
    deliver_idle awaiting_twoBytes.saved awaiting_twoBytes.inspected (.inl (Nat.le_refl 2))
  rw [h.once] at hb
  exact List.cons_ne_self _ _ hb

end OpenResty.Waf
