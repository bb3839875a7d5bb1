/-
The transform cache over the phases of a request.

A value in the cache is that of a variable handed over before, under the same
key. It is the value the variable would have without the cache as long as no
write has changed that since. Where there is nothing to parse or to transform
the cache holds the collection's own table, and writes into it do no harm.
-/
import OpenResty.Waf.ExecSteps
import OpenResty.Waf.CollectionKey

namespace OpenResty.Waf

open Lua Lib List

variable (env : Env)

/-! ## Runs -/

/-- A transaction before its first phase, in a worker. -/
def State.begin (worker : Worker) (store : Storage) : State := { worker, req := .new store, events := [] }

/-- The phases of a request, one after the other, however each of them ends. -/
def execAll : List Call → State → State
  | [], s => s
  | call :: calls, s => execAll calls (finalState (exec env call) s)

/-! ## Values -/

/-- The value of a variable, taken from the collections without the cache. -/
def Request.valueOf (r : Request) (transform : Option TransformOpt) (var : Var) : Except String (Option Val) :=
  freshValue env.eng r.collection var transform

/-- What the operator would be handed without the cache. -/
def Request.recomputed (r : Request) (transform : Option TransformOpt) (var : Var) : Except String (Option Val) :=
  (r.valueOf env transform var).map fun v => if var.length then some (lengthOf v) else v

/-- What the operator is handed is what it would be without the cache. -/
def Event.Unobservable : Event → Prop
  | .handed r transform var given => r.recomputed env transform var = .ok given
  | _ => True

/-- A variable that takes its collection as it is. -/
def Whole (transform : Option TransformOpt) (var : Var) : Prop := var.parse = none ∧ transformsOf transform = []

/-- The slot of a variable's collection. -/
def Request.slotOf (r : Request) (var : Var) : Option Slot := var.type.bind (r.collections.lookup ·)

/-- A write leaves the value of a variable alone; of one that takes its
collection as it is, it leaves alone which table that is. -/
def Undisturbed (before after : Request) (transform : Option TransformOpt) (var : Var) : Prop :=
  (Whole transform var → after.slotOf var = before.slotOf var) ∧
  (¬ Whole transform var → after.valueOf env transform var = before.valueOf env transform var)

/-- A variable that has been handed over, by way of the cache. -/
def WasCached (past : List Event) (transform : Option TransformOpt) (var : Var) : Prop :=
  (∃ r given, .handed r transform var given ∈ past) ∧ var.storage = false

/-- What keeps the cache unobservable, step by step: no write disturbs a
variable whose value is in the cache; a variable handed over under the key of
another selects the same; a storage variable has no transforms. -/
def KeepsValues (past : List Event) : Event → Prop
  | .wrote before after => ∀ transform var, WasCached past transform var →
    (after.transform.lookup var.collection_key).isSome → Undisturbed env before after transform var
  | .handed _ transform var _ =>
    (var.storage = true → transformsOf transform = []) ∧
    (var.storage = false → ∀ transform' var', WasCached past transform' var' →
      var'.collection_key = var.collection_key →
      selection var' = selection var ∧ transformsOf transform' = transformsOf transform)
  | _ => True

/-! ## The cache -/

/-- What the cache holds for a variable: the slot of its collection, or its value. -/
def Entry (r : Request) (transform : Option TransformOpt) (var : Var) (slot : Option Slot) : Prop :=
  (Whole transform var → slot = r.slotOf var) ∧
  (¬ Whole transform var → ∃ v, slot = v.map .val ∧ r.valueOf env transform var = .ok v)

/-- Every entry of the cache is one for a variable handed over under its key. -/
def Coherent (past : List Event) (r : Request) : Prop :=
  ∀ key slot, r.transform.lookup key = some slot →
    ∃ transform var, WasCached past transform var ∧ var.collection_key = key ∧ Entry env r transform var slot

variable {env}

/-- The slot that is parsed holds what `_parse_collection` returns. -/
theorem parsed_deref (r : Request) (var : Var) :
    (r.parsed env var).map (·.deref r.store.heap) = parseCollection env.eng (var.type.bind r.collection) var := by
  unfold Request.parsed
  split
  · next h =>
    simp only [parseCollection, h]
    cases var.type <;> rfl
  · cases parseCollection env.eng (var.type.bind r.collection) var <;> rfl

variable {r r' : Request} {var : Var}

theorem parsed_whole (h : var.parse = none) : r.parsed env var = r.slotOf var := by
  simp only [Request.parsed, h]
  rfl

theorem doTransform_none {eng : Engine} {transform : Option TransformOpt} (h : transformsOf transform = [])
    (v : Option Val) : doTransform eng v transform = .ok v := by
  rw [doTransform_congr eng v (u := none) h]
  cases v <;> rfl

theorem valueOf_whole {transform : Option TransformOpt} (h : Whole transform var) :
    r.valueOf env transform var = .ok ((r.slotOf var).map (·.deref r.store.heap)) := by
  rw [Request.valueOf, freshValue, ← parsed_deref, parsed_whole h.1, doTransform_none h.2]

variable {slot : Option Slot}

theorem Entry.value {transform : Option TransformOpt}
    (h : Entry env r transform var slot) :
    r.valueOf env transform var = .ok (slot.map (·.deref r.store.heap)) := by
  by_cases hw : Whole transform var
  · rw [h.1 hw, valueOf_whole hw]
  · obtain ⟨v, rfl, hv⟩ := h.2 hw
    rw [hv]
    cases v <;> rfl

theorem valueOf_congr (hc : r'.collections = r.collections) (hh : r'.store.heap = r.store.heap) :
    r'.valueOf env = r.valueOf env := by
  have : r'.collection = r.collection := by
    funext name
    simp only [Request.collection, hc, hh]
  funext transform var
  simp only [Request.valueOf, this]

/-- An entry stays one while its variable is not disturbed. -/
theorem Entry.undisturbed {transform : Option TransformOpt}
    (h : Entry env r transform var slot) (hu : Undisturbed env r r' transform var) :
    Entry env r' transform var slot := by
  refine ⟨fun hw => (h.1 hw).trans (hu.1 hw).symm, fun hw => ?_⟩
  obtain ⟨v, hslot, hv⟩ := h.2 hw
  exact ⟨v, hslot, (hu.2 hw).trans hv⟩

/-! ## Steps -/

/-- The cache is coherent, and has not been observed, if the steps so far kept the values. -/
def Hidden (env : Env) (s : State) : Prop :=
  Each (KeepsValues env) s.events → Coherent env s.events s.req ∧ ∀ e ∈ s.events, e.Unobservable env

theorem WasCached.cons {past : List Event} {transform : Option TransformOpt} {var : Var} (e : Event)
    (h : WasCached past transform var) : WasCached (e :: past) transform var := by
  obtain ⟨⟨r, given, hmem⟩, hs⟩ := h
  exact ⟨⟨r, given, mem_cons_of_mem _ hmem⟩, hs⟩

theorem Coherent.cons {past : List Event} {r : Request} (e : Event) (h : Coherent env past r) :
    Coherent env (e :: past) r := by
  intro key slot hk
  obtain ⟨transform, var, hc, hkey, hentry⟩ := h key slot hk
  exact ⟨transform, var, hc.cons e, hkey, hentry⟩

theorem Entry.congr {transform : Option TransformOpt}
    (h : Entry env r transform var slot) (hc : r'.collections = r.collections)
    (hh : r'.store.heap = r.store.heap) : Entry env r' transform var slot :=
  h.undisturbed ⟨fun _ => by simp only [Request.slotOf, hc], fun _ => by rw [valueOf_congr hc hh]⟩

theorem Coherent.congr {past : List Event} (h : Coherent env past r)
    (hc : r'.collections = r.collections) (hh : r'.store.heap = r.store.heap) (ht : r'.transform = r.transform) :
    Coherent env past r' := by
  intro key slot hk
  obtain ⟨transform, var, hcached, hkey, hentry⟩ := h key slot (ht ▸ hk)
  exact ⟨transform, var, hcached, hkey, hentry.congr hc hh⟩

theorem Hidden.setReq {s : State} (h : Hidden env s) (hc : r.collections = s.req.collections)
    (hh : r.store.heap = s.req.store.heap) (ht : r.transform = s.req.transform) : Hidden env (s.setReq r) :=
  fun hk => ⟨(h hk).1.congr hc hh ht, (h hk).2⟩

theorem Hidden.emit {s : State} (h : Hidden env s) {e : Event} (he : e.Unobservable env) : Hidden env (s.emit e) :=
  fun hk => ⟨(h hk.2).1.cons e, fun _ hmem => (mem_cons.mp hmem).elim (fun heq => heq ▸ he) ((h hk.2).2 _)⟩

/-- A write that leaves the cache, or drops it. -/
theorem Hidden.wrote {s : State} (h : Hidden env s)
    (ht : r.transform = s.req.transform ∨ r.transform = []) : Hidden env (s.wrote r) := by
  intro hk
  obtain ⟨hcoh, hall⟩ := h hk.2
  refine ⟨fun key slot hslot => ?_, fun e hmem => ?_⟩
  · rw [State.wrote_req] at hslot
    rcases ht with ht | ht
    · obtain ⟨transform, var, hc, hkey, hentry⟩ := hcoh key slot (ht ▸ hslot)
      refine ⟨transform, var, hc.cons _, hkey, hentry.undisturbed (hk.1 transform var hc ?_)⟩
      rw [hkey, hslot]
      rfl
    · rw [ht] at hslot
      cases hslot
  · rcases mem_cons.mp hmem with rfl | hmem
    · trivial
    · exact hall e hmem

/-- A worker with one ruleset, for the access phase. -/
def accessWorker (rules : List Rule) : Worker where
  rules ruleset phase := if ruleset = "rules" ∧ phase = .access then (calculate rules).toOption.getD [] else []
  dicts := []

/-- The access phase of a request for `/a`. -/
def accessCall : Call where
  phase := .access
  collections := none
  server name := if name = "URI" then some (.leaf (.str "/a")) else none
  now := 0
  data := none
  eof := false

/-- A rule that looks for `/a` in one collection. -/
def equalsRule (id : Nat) (type : String) : Rule where
  id := some (.num id)
  vars := some { list := [{ type := some type }] }
  operator := some .EQUALS
  pattern := some (.leaf (.str "/a"))
  actions := { disrupt := some .IGNORE }

/-- Nothing is handed over although the collection has a value. -/
def Event.missed (env : Env) : Event → Bool
  | .handed r transform var none =>
    match r.recomputed env transform var with
    | .ok (some _) => true
    | _ => false
  | _ => false

end OpenResty.Waf
