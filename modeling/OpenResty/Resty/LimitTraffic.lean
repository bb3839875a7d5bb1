/-
`resty.limit.traffic`: limiters asked one after the other, first without a
commit, except for the last one, and then with it.

When a limiter refuses in the second pass, the keys of those before it are
uncommitted, but by the limiter that refused; and the last limiter, which
committed in the first pass, stays committed.
-/
import OpenResty.Resty.LimitConn

namespace OpenResty.Resty.LimitTraffic

open Lib List Function Option Prod

inductive Limiter
  | req (lim : LimitReq)
  | conn (lim : LimitConn)

/-- A limiter with its shared dictionary -/
structure Object where
  dict : Nat
  limiter : Limiter

/-- The shared dictionaries and the limiter objects, by their addresses. -/
structure World where
  dict : Nat → Dict Text
  object : Nat → Object

/-- `limiters[i]` and `keys[i]` -/
structure Entry where
  lim : Nat
  key : Bytes
  deriving DecidableEq

namespace World

def setDict (w : World) (i : Nat) (dict : Dict Text) : World :=
  { w with dict := update w.dict (w.object i).dict dict }

def setObject (w : World) (i : Nat) (limiter : Limiter) : World :=
  { w with object := update w.object i { w.object i with limiter } }

/-- `lim:incoming`; `nil` when an error is raised. -/
def incoming (w : World) (now : Nat) (e : Entry) (commit : Bool) : Option (Except LimitError (Rat × Rat) × World) :=
  let dict := w.dict (w.object e.lim).dict
  match (w.object e.lim).limiter with
  | .req lim =>
    let (answer, dict) := lim.incoming now dict e.key commit
    some (answer, w.setDict e.lim dict)
  | .conn lim =>
    (lim.incoming dict e.key commit).map fun (answer, lim, dict) =>
      (answer, (w.setDict e.lim dict).setObject e.lim (.conn lim))

/-- `lim:uncommit`, where any error is ignored. -/
def uncommit (w : World) (e : Entry) : World :=
  let dict := w.dict (w.object e.lim).dict
  match (w.object e.lim).limiter with
  | .req _ => w.setDict e.lim (LimitReq.uncommit dict e.key).2
  | .conn _ => w.setDict e.lim (LimitConn.uncommit dict e.key).2

end World

/-- What `combine` returns and leaves, and the calls that it made: those of
`incoming` that committed, and those of `uncommit`. -/
structure Combined where
  result : Except LimitError Rat
  world : World
  states : Option (Nat → Option Rat)
  commits : List Entry
  uncommits : List Entry

/-- The first pass before the last limiter, with the error of the one that
refuses. -/
def dryRuns (now : Nat) (w : World) : List Entry → Option (Option LimitError × World)
  | [] => some (none, w)
  | e :: es =>
    match w.incoming now e false with
    | none => none
    | some (.error err, w) => some (some err, w)
    | some (.ok _, w) => dryRuns now w es

/-- The second pass, from the limiter at `i` on; `lims` has those before it. -/
def secondPass (now : Nat) (i : Nat) (lims : List Entry) (out : Combined) (max_delay : Rat) :
    List Entry → Option Combined
  | [] => some { out with result := .ok max_delay }
  | e :: es =>
    match out.world.incoming now e true with
    | none => none
    | some (.error err, w) =>
      let uncommits := lims.map fun e' => { lim := e.lim, key := e'.key }
      some { out with result := .error err, world := uncommits.foldl World.uncommit w, uncommits }
    | some (.ok (delay, state), w) =>
      let states := out.states.map fun states => update states i (some state)
      secondPass now (i + 1) (lims ++ [e]) { out with world := w, states, commits := out.commits ++ [e] }
        (max max_delay delay) es

def combine (now : Nat) (w : World) (es : List Entry) (states : Option (Nat → Option Rat)) : Option Combined :=
  match es.getLast? with
  | none => some { result := .ok 0, world := w, states, commits := [], uncommits := [] }
  | some last =>
    match dryRuns now w es.dropLast with
    | none => none
    | some (some err, w) => some { result := .error err, world := w, states, commits := [], uncommits := [] }
    | some (none, w) =>
      match w.incoming now last true with
      | none => none
      | some (.error err, w) => some { result := .error err, world := w, states, commits := [], uncommits := [] }
      | some (.ok (delay, state), w) =>
        let states := states.map fun states => update states es.length (some state)
        secondPass now 1 [] { result := .ok delay, world := w, states, commits := [last], uncommits := [] } delay
          es.dropLast

/-! ## What one call does to its key -/

section Calls

variable {req : LimitReq} {conn conn' : LimitConn} {now : Nat} {dict dict' : Dict Text} {key : Bytes}

theorem req_dryRun : (req.incoming now dict key false).2 = dict := by
  unfold LimitReq.incoming
  split
  · rfl
  · split
    · rfl
    · split <;> rfl

theorem req_refuses {err : LimitError} (h : (req.incoming now dict key true).1 = .error err) :
    (req.incoming now dict key true).2 = dict := by
  unfold LimitReq.incoming at h ⊢
  cases hv : dict key with
  | none =>
    rw [hv] at h
    cases h
  | some v =>
    rw [hv] at h
    dsimp only at h ⊢
    cases hr : v.rec? with
    | none => rfl
    | some r =>
      rw [hr] at h
      dsimp only at h ⊢
      split at h
      · next hover => rw [if_pos hover]
      · cases h

/-- A committed record is of now; when the one before was, it has one more request. -/
theorem req_commits {answer : Rat × Rat} (h : (req.incoming now dict key true).1 = .ok answer) :
    ∃ excess, (req.incoming now dict key true).2 = dict.set key (some (Rec.str { excess, last := now })) ∧
      ∀ v, dict key = some v → ∃ r, v.rec? = some r ∧ (r.last = now → excess = r.excess + 1000) := by
  unfold LimitReq.incoming at h ⊢
  cases hv : dict key with
  | none => exact ⟨_, rfl, fun v hv => by cases hv⟩
  | some v =>
    rw [hv] at h
    dsimp only at h ⊢
    cases hr : v.rec? with
    | none =>
      rw [hr] at h
      cases h
    | some r =>
      rw [hr] at h
      dsimp only at h ⊢
      split at h
      · cases h
      · next hfits =>
        rw [if_neg hfits]
        refine ⟨_, rfl, fun v' hv' => ⟨r, some.inj hv' ▸ hr, fun hlast => ?_⟩⟩
        have hexcess : req.excess now r = ((r.excess + 1000 : Nat) : Rat) := by
          unfold LimitReq.excess
          rw [hlast]
          push_cast
          rw [sub_self, abs_zero, mul_zero, zero_div, sub_zero]
          exact max_eq_left (by positivity)
        rw [hexcess, Nat.floor_natCast]

theorem conn_dryRun {answer} (h : conn.incoming dict key false = some (answer, conn', dict')) : dict' = dict := by
  unfold LimitConn.incoming at h
  rw [if_neg Bool.false_ne_true] at h
  obtain ⟨n, -, hn⟩ := map_eq_some_iff.mp h
  split at hn <;> cases hn <;> rfl

/-- The number of connections: none are stored before the first. -/
def Connections (v : Option (Value Text)) (n : Rat) : Prop := v = some (.number n) ∨ v = none ∧ n = 0

theorem enter_cases (conn : LimitConn) (dict : Dict Text) (key : Bytes) :
    (∃ e, dict key ≠ none ∧ conn.enter dict key = (.failed e, { conn with committed := false }, dict)) ∨
      ∃ n, Connections (dict key) n ∧
        conn.enter dict key =
          if conn.max + conn.burst < n + 1 then
            (.beyond (n + 1), { conn with committed := false }, dict.set key (some (.number (n + 1))))
          else (.under (n + 1), { conn with committed := true }, dict.set key (some (.number (n + 1)))) := by
  unfold LimitConn.enter Dict.incr
  cases hv : dict key with
  | none => exact .inr ⟨0, .inr ⟨rfl, rfl⟩, rfl⟩
  | some v =>
    cases v with
    | number n => exact .inr ⟨n, .inl rfl, rfl⟩
    | boolean b | string s => exact .inl ⟨_, some_ne_none _, rfl⟩

theorem back_eq (n : Rat) :
    LimitConn.back (n + 1) (dict.set key (some (.number (n + 1)))) key = (.rejected,
      dict.set key (some (.number n))) := by
  unfold LimitConn.back
  rw [Dict.incr_number Dict.set_self, add_neg_cancel_right, Dict.set, Dict.set, update_idem]
  rfl

theorem conn_commits {answer : Rat × Rat} (h : conn.incoming dict key true = some (.ok answer, conn', dict')) :
    ∃ n, Connections (dict key) n ∧ dict' = dict.set key (some (.number (n + 1))) := by
  unfold LimitConn.incoming at h
  rw [if_pos rfl] at h
  rcases enter_cases conn dict key with ⟨e, hsome, henter⟩ | ⟨n, hn, henter⟩
  · rw [henter] at h
    cases h
  · rw [henter] at h
    split_ifs at h
    · dsimp only at h
      rw [back_eq] at h
      cases h
    · cases h
      exact ⟨n, hn, rfl⟩

/-- A limiter that allows no connection at all sets a key that is not there. -/
def AllowsNone (conn : LimitConn) (v : Option (Value Text)) : Prop := v = none ∧ conn.max + conn.burst < 1

theorem conn_refuses {err : LimitError} (h : conn.incoming dict key true = some (.error err, conn', dict')) :
    ¬ AllowsNone conn (dict key) ∧ dict' = dict ∨ AllowsNone conn (dict key) ∧
      dict' = dict.set key (some (.number 0)) := by
  unfold LimitConn.incoming at h
  rw [if_pos rfl] at h
  rcases enter_cases conn dict key with ⟨e, hsome, henter⟩ | ⟨n, hn, henter⟩
  · rw [henter] at h
    cases h
    exact .inl ⟨fun hopens => hsome hopens.1, rfl⟩
  · rw [henter] at h
    split_ifs at h with hover
    · dsimp only at h
      rw [back_eq] at h
      cases h
      rcases hn with hn | ⟨hn, rfl⟩
      · refine .inl ⟨fun hopens => ?_, ?_⟩
        · cases hn.symm.trans hopens.1
        · exact (congrArg _ hn.symm).trans (update_eq_self key dict)
      · exact .inr ⟨⟨hn, by rwa [zero_add] at hover⟩, rfl⟩
    · cases h

end Calls

/-! ## What the calls do to a cell -/

/-- A key of a shared dictionary -/
abbrev Cell := Nat × Bytes

def World.cell (w : World) (e : Entry) : Cell := ((w.object e.lim).dict, e.key)

/-- The state of a limiter for its key is what is stored there. -/
def World.stored (w : World) (c : Cell) : Option (Value Text) := w.dict c.1 c.2

/-- How many requests a cell stands for. -/
def level : Option (Value Text) → Rat
  | some (.number n) => n
  | some (.string { record := some r, .. }) => r.excess / 1000
  | _ => 0

/-- A cell as a commit at `now` leaves it: it is there, and a record is of now. -/
def Stamped (now : Nat) : Option (Value Text) → Prop
  | none => False
  | some (.string { record := some r, .. }) => r.last = now
  | _ => True

/-- What calls with these commits and uncommits do. -/
structure Effect (now : Nat) (w w' : World) (commits uncommits : List Cell) : Prop where
  places : ∀ i, (w'.object i).dict = (w.object i).dict
  stamped : ∀ c, Stamped now (w.stored c) ∨ c ∈ commits → Stamped now (w'.stored c)
  leveled : ∀ c, Stamped now (w.stored c) →
    level (w.stored c) + commits.count c - uncommits.count c ≤ level (w'.stored c)

variable {now : Nat} {w w' w'' : World} {e : Entry} {es : List Entry} {as as' bs bs' : List Cell} {c : Cell}

theorem Effect.refl : Effect now w w [] [] where
  places _ := rfl
  stamped _ h := h.resolve_right (by simp)
  leveled _ _ := by simp

theorem Effect.trans (h : Effect now w w' as bs) (h' : Effect now w' w'' as' bs') :
    Effect now w w'' (as ++ as') (bs ++ bs') where
  places i := (h'.places i).trans (h.places i)
  stamped c hc := by
    refine h'.stamped c ?_
    rcases hc with hc | hc
    · exact .inl (h.stamped c (.inl hc))
    · exact (mem_append.mp hc).imp_left fun hc => h.stamped c (.inr hc)
  leveled c hc := by
    have hfirst := h.leveled c hc
    have hsecond := h'.leveled c (h.stamped c (.inl hc))
    rw [List.count_append, List.count_append]
    push_cast
    linarith

theorem Effect.cell (h : Effect now w w' as bs) (e : Entry) : w'.cell e = w.cell e := by
  unfold World.cell
  rw [h.places]

/-- More commits than uncommits do not leave every committed cell as it was. -/
theorem Effect.changed (h : Effect now w w' as bs) (hmore : bs.length < as.length) :
    ∃ c ∈ as, w'.stored c ≠ w.stored c := by
  by_contra hall
  push Not at hall
  have hsub : as.Subperm bs := by
    refine subperm_ext_iff.mpr fun c hc => ?_
    have hsame := hall c hc
    have hstamped : Stamped now (w.stored c) := hsame ▸ h.stamped c (.inr hc)
    have hlevel := h.leveled c hstamped
    rw [hsame] at hlevel
    have hcount : (as.count c : Rat) ≤ bs.count c := by linarith
    exact_mod_cast hcount
  exact absurd hsub.length_le (Nat.not_le_of_lt hmore)

/-- The key of `e` is set, and nothing else. -/
structure Sets (w w' : World) (e : Entry) (v : Option (Value Text)) : Prop where
  places : ∀ i, (w'.object i).dict = (w.object i).dict
  here : w'.stored (w.cell e) = v
  others : ∀ c, c ≠ w.cell e → w'.stored c = w.stored c

theorem Sets.effect {v : Option (Value Text)} (h : Sets w w' e v) (has : ∀ c ∈ as, c = w.cell e)
    (hbs : ∀ c ∈ bs, c = w.cell e) (hstamped : Stamped now (w.stored (w.cell e)) ∨ as ≠ [] → Stamped now v)
    (hleveled : Stamped now (w.stored (w.cell e)) → level (w.stored (w.cell e)) + as.length - bs.length ≤ level v) :
    Effect now w w' as bs where
  places := h.places
  stamped c hc := by
    by_cases hcell : c = w.cell e
    · rw [hcell, h.here]
      exact hstamped (hcell ▸ hc.imp_right fun hmem hnil => by rw [hnil] at hmem; cases hmem)
    · rw [h.others c hcell]
      exact hc.resolve_right fun hmem => hcell (has c hmem)
  leveled c hc := by
    by_cases hcell : c = w.cell e
    · subst hcell
      rw [h.here, count_eq_length.mpr fun c hc => (has c hc).symm, count_eq_length.mpr fun c hc =>
        (hbs c hc).symm]
      exact hleveled hc
    · rw [h.others c hcell, count_eq_zero_of_not_mem fun hmem => hcell (has c hmem),
        count_eq_zero_of_not_mem fun hmem => hcell (hbs c hmem)]
      simp

theorem Sets.same (h : Sets w w' e (w.stored (w.cell e))) (c : Cell) : w'.stored c = w.stored c := by
  by_cases hcell : c = w.cell e
  · rw [hcell, h.here]
  · exact h.others c hcell

theorem Sets.of_dict {dict : Dict Text} {v : Option (Value Text)}
    (hplaces : ∀ i, (w'.object i).dict = (w.object i).dict)
    (hw : w'.dict = update w.dict (w.object e.lim).dict dict)
    (hdict : dict = (w.dict (w.object e.lim).dict).set e.key v) : Sets w w' e v where
  places := hplaces
  here := by
    unfold World.stored World.cell
    rw [hw, hdict, update_self, Dict.set_self]
  others c hc := by
    unfold World.stored
    rw [hw, hdict]
    by_cases hplace : c.1 = (w.object e.lim).dict
    · have hkey : c.2 ≠ e.key := fun hkey => hc (Prod.ext hplace hkey)
      rw [hplace, update_self, Dict.set_ne hkey]
    · rw [update_of_ne hplace]

theorem Sets.of_same {dict : Dict Text} (hplaces : ∀ i, (w'.object i).dict = (w.object i).dict)
    (hw : w'.dict = update w.dict (w.object e.lim).dict dict) (hdict : dict = w.dict (w.object e.lim).dict) :
    Sets w w' e (w.stored (w.cell e)) :=
  .of_dict hplaces hw (hdict.trans (update_eq_self e.key (w.dict (w.object e.lim).dict)).symm)

theorem places_setObject {i : Nat} {limiter : Limiter} (j : Nat) :
    ((w.setObject i limiter).object j).dict = (w.object j).dict := by
  change (update w.object i { w.object i with limiter } j).dict = (w.object j).dict
  by_cases hj : j = i
  · rw [hj, update_self]
  · rw [update_of_ne hj]

/-! ## One call -/

theorem level_of_rec {v : Value Text} {r : Rec} (h : v.rec? = some r) : level (some v) = r.excess / 1000 := by
  cases v with
  | string s =>
    obtain ⟨record, numeral⟩ := s
    cases (show record = some r from h)
    rfl
  | boolean b | number n => cases h

theorem stamped_of_rec {v : Value Text} {r : Rec} (h : v.rec? = some r) : Stamped now (some v) ↔ r.last = now := by
  cases v with
  | string s =>
    obtain ⟨record, numeral⟩ := s
    cases (show record = some r from h)
    exact Iff.rfl
  | boolean b | number n => cases h

theorem incoming_dryRun {answer} (h : w.incoming now e false = some (answer, w')) :
    Sets w w' e (w.stored (w.cell e)) := by
  unfold World.incoming at h
  cases hlim : (w.object e.lim).limiter with
  | req lim =>
    rw [hlim] at h
    obtain ⟨-, rfl⟩ := mk.inj (some.inj h)
    exact .of_same (fun _ => rfl) rfl req_dryRun
  | conn lim =>
    rw [hlim] at h
    obtain ⟨⟨answer', lim', dict'⟩, hcall, hout⟩ := map_eq_some_iff.mp h
    cases hout
    exact .of_same places_setObject rfl (conn_dryRun hcall)

theorem incoming_commits {answer : Rat × Rat} (h : w.incoming now e true = some (.ok answer, w')) :
    ∃ v, Sets w w' e v ∧ Stamped now v ∧
      (Stamped now (w.stored (w.cell e)) → level (w.stored (w.cell e)) + 1 ≤ level v) := by
  unfold World.incoming at h
  cases hlim : (w.object e.lim).limiter with
  | req lim =>
    rw [hlim] at h
    obtain ⟨hanswer, rfl⟩ := mk.inj (some.inj h)
    obtain ⟨excess, hdict, hagain⟩ := req_commits hanswer
    refine ⟨some (Rec.str { excess, last := now }), .of_dict (fun _ => rfl) rfl hdict, rfl, fun hstamped => ?_⟩
    unfold World.stored World.cell at hstamped ⊢
    cases hv : w.dict (w.object e.lim).dict e.key with
    | none =>
      rw [hv] at hstamped
      exact hstamped.elim
    | some v =>
      obtain ⟨r, hr, hexcess⟩ := hagain v hv
      rw [hv, stamped_of_rec hr] at hstamped
      rw [level_of_rec hr, hexcess hstamped]
      change (r.excess : Rat) / 1000 + 1 ≤ ((r.excess + 1000 : Nat) : Rat) / 1000
      push_cast
      linarith
  | conn lim =>
    rw [hlim] at h
    obtain ⟨⟨answer', lim', dict'⟩, hcall, hout⟩ := map_eq_some_iff.mp h
    cases hout
    obtain ⟨n, hn, hdict⟩ := conn_commits hcall
    refine ⟨some (.number (n + 1)), .of_dict places_setObject rfl hdict, trivial, fun hstamped => ?_⟩
    unfold World.stored World.cell at hstamped ⊢
    rcases hn with hn | ⟨hn, -⟩
    · rw [hn]
      exact le_refl _
    · rw [hn] at hstamped
      exact hstamped.elim

/-- The limiter is one that allows no connection, and its key is not there. -/
def World.Opens (w : World) (e : Entry) : Prop :=
  ∃ conn, (w.object e.lim).limiter = .conn conn ∧ AllowsNone conn (w.stored (w.cell e))

theorem incoming_refuses {err : LimitError} (h : w.incoming now e true = some (.error err, w')) :
    ∃ v, Sets w w' e v ∧
      (¬ w.Opens e ∧ v = w.stored (w.cell e) ∨ w.Opens e ∧ w.stored (w.cell e) = none ∧ v = some (.number 0)) := by
  unfold World.incoming at h
  cases hlim : (w.object e.lim).limiter with
  | req lim =>
    rw [hlim] at h
    obtain ⟨hanswer, rfl⟩ := mk.inj (some.inj h)
    refine ⟨_, .of_same (fun _ => rfl) rfl (req_refuses hanswer), .inl ⟨fun ⟨conn, hconn, _⟩ => ?_, rfl⟩⟩
    cases hlim.symm.trans hconn
  | conn lim =>
    rw [hlim] at h
    obtain ⟨⟨answer', lim', dict'⟩, hcall, hout⟩ := map_eq_some_iff.mp h
    cases hout
    rcases conn_refuses hcall with ⟨hopens, hdict⟩ | ⟨hopens, hdict⟩
    · refine ⟨_, .of_same places_setObject rfl hdict, .inl ⟨fun ⟨conn, hconn, hopens'⟩ => hopens ?_, rfl⟩⟩
      cases hlim.symm.trans hconn
      exact hopens'
    · exact ⟨_, .of_dict places_setObject rfl hdict, .inr ⟨⟨lim, hlim, hopens⟩, hopens.1, rfl⟩⟩

theorem uncommit_sets (now : Nat) (w : World) (e : Entry) : ∃ v, Sets w (w.uncommit e) e v ∧
    (Stamped now (w.stored (w.cell e)) → Stamped now v ∧ level (w.stored (w.cell e)) - 1 ≤ level v) := by
  have hsame : ∀ v, Stamped now v → Stamped now v ∧ level v - 1 ≤ level v := fun v h => ⟨h, by linarith⟩
  unfold World.uncommit
  cases hlim : (w.object e.lim).limiter with
  | req lim =>
    dsimp only
    unfold LimitReq.uncommit
    cases hv : w.dict (w.object e.lim).dict e.key with
    | none => exact ⟨_, .of_same (fun _ => rfl) rfl rfl, hsame _⟩
    | some v =>
      dsimp only
      cases hr : v.rec? with
      | none => exact ⟨_, .of_same (fun _ => rfl) rfl rfl, hsame _⟩
      | some r =>
        refine ⟨_, .of_dict (fun _ => rfl) rfl rfl, fun hstamped => ?_⟩
        rw [show w.stored (w.cell e) = some v from hv] at hstamped ⊢
        refine ⟨(stamped_of_rec hr).mp hstamped, ?_⟩
        rw [level_of_rec hr]
        change (r.excess : Rat) / 1000 - 1 ≤ ((⌊max ((r.excess : Rat) - 1000) 0⌋₊ : Nat) : Rat) / 1000
        have hmax : ((r.excess - 1000 : Nat) : Rat) ≤ max ((r.excess : Rat) - 1000) 0 := by
          rcases Nat.le_total 1000 r.excess with h | h
          · rw [Nat.cast_sub h]
            exact le_max_left ..
          · rw [Nat.sub_eq_zero_of_le h]
            exact le_max_right ..
        have hfloor : r.excess ≤ ⌊max ((r.excess : Rat) - 1000) 0⌋₊ + 1000 :=
          Nat.sub_le_iff_le_add.mp (Nat.le_floor hmax)
        have hcast : (r.excess : Rat) ≤ (⌊max ((r.excess : Rat) - 1000) 0⌋₊ : Nat) + 1000 := by exact_mod_cast hfloor
        linarith
  | conn lim =>
    dsimp only
    unfold LimitConn.uncommit Dict.incr
    cases hv : w.dict (w.object e.lim).dict e.key with
    | none => exact ⟨_, .of_same (fun _ => rfl) rfl rfl, hsame _⟩
    | some v =>
      cases v with
      | number n =>
        refine ⟨_, .of_dict (fun _ => rfl) rfl rfl, fun hstamped => ?_⟩
        rw [show w.stored (w.cell e) = some (.number n) from hv]
        exact ⟨trivial, le_of_eq (sub_eq_add_neg n 1)⟩
      | boolean b | string s => exact ⟨_, .of_same (fun _ => rfl) rfl rfl, hsame _⟩

/-! ## Their effects -/

theorem effect_commits {answer : Rat × Rat} (h : w.incoming now e true = some (.ok answer, w')) :
    Effect now w w' [w.cell e] [] := by
  obtain ⟨v, hsets, hstamped, hlevel⟩ := incoming_commits h
  refine hsets.effect (by simp) (by simp) (fun _ => hstamped) fun h => ?_
  simpa using hlevel h

theorem effect_refuses {err : LimitError} (h : w.incoming now e true = some (.error err, w')) :
    Effect now w w' [] [] := by
  obtain ⟨v, hsets, ⟨-, rfl⟩ | ⟨-, hnone, rfl⟩⟩ := incoming_refuses h
  · exact hsets.effect (by simp) (by simp) (fun h => h.resolve_right (by simp)) fun _ => by simp
  · refine hsets.effect (by simp) (by simp) (fun _ => trivial) fun hstamped => ?_
    rw [hnone] at hstamped
    exact hstamped.elim

theorem effect_uncommit : Effect now w (w.uncommit e) [] [w.cell e] := by
  obtain ⟨v, hsets, hkept⟩ := uncommit_sets now w e
  refine hsets.effect (by simp) (by simp) (fun h => (hkept (h.resolve_right (by simp))).1) fun h => ?_
  simpa using (hkept h).2

theorem effect_uncommits (w : World) (es : List Entry) :
    Effect now w (es.foldl World.uncommit w) [] (es.map w.cell) := by
  induction es generalizing w with
  | nil => exact .refl
  | cons e es ih =>
    have hfirst : Effect now w (w.uncommit e) [] [w.cell e] := effect_uncommit
    have hcells : es.map (w.uncommit e).cell = es.map w.cell := map_congr_left fun e' _ => hfirst.cell e'
    have hrest := ih (w.uncommit e)
    rw [hcells] at hrest
    exact hfirst.trans hrest

/-! ## The passes -/

/-- Every limiter lets its call through, in turn. -/
def Commits (now : Nat) (w : World) : List Entry → Prop
  | [] => True
  | e :: es =>
    match w.incoming now e true with
    | none => True
    | some (.error _, _) => False
    | some (.ok _, w) => Commits now w es

theorem dryRuns_same {err : Option LimitError} (h : dryRuns now w es = some (err, w')) :
    (∀ i, (w'.object i).dict = (w.object i).dict) ∧ ∀ c, w'.stored c = w.stored c := by
  induction es generalizing w with
  | nil =>
    cases h
    exact ⟨fun _ => rfl, fun _ => rfl⟩
  | cons e es ih =>
    rw [dryRuns] at h
    split at h
    · cases h
    · next hcall =>
      cases h
      exact ⟨(incoming_dryRun hcall).places, (incoming_dryRun hcall).same⟩
    · next hcall =>
      obtain ⟨hplaces, hsame⟩ := ih h
      exact ⟨fun i => (hplaces i).trans ((incoming_dryRun hcall).places i),
        fun c => (hsame c).trans ((incoming_dryRun hcall).same c)⟩

variable {i : Nat} {lims : List Entry} {out out' : Combined} {delay : Rat} {err : LimitError}

theorem secondPass_commits (h : Commits now out.world es) (hout : secondPass now i lims out delay es = some out') :
    out'.result ≠ .error err := by
  induction es generalizing i lims out delay with
  | nil =>
    cases hout
    exact fun h => by cases h
  | cons e es ih =>
    rw [Commits] at h
    rw [secondPass] at hout
    split at hout
    · cases hout
    · next hcall =>
      rw [hcall] at h
      exact h.elim
    · next hcall =>
      rw [hcall] at h
      exact ih h hout

/-- When a limiter refuses, there have been as many uncommits as there were
commits in the second pass. -/
theorem secondPass_refuses (h : ¬ Commits now out.world es) :
    (∃ out' err, secondPass now i lims out delay es = some out' ∧ out'.result = .error err ∧
      ∃ as bs, Effect now out.world out'.world as bs ∧ bs.length = lims.length + as.length ∧
        ∀ c ∈ as, ∃ e ∈ es, c = out.world.cell e) := by
  induction es generalizing i lims out delay with
  | nil => exact absurd trivial h
  | cons e es ih =>
    rw [Commits] at h
    rw [secondPass]
    cases hcall : out.world.incoming now e true with
    | none =>
      rw [hcall] at h
      exact absurd trivial h
    | some answer =>
      obtain ⟨answer, w⟩ := answer
      rw [hcall] at h
      cases answer with
      | error err =>
        refine ⟨_, err, rfl, rfl, [], _, (effect_refuses hcall).trans (effect_uncommits ..), ?_,
          fun c hc => by cases hc⟩
        simp
      | ok answer =>
        obtain ⟨delay', state⟩ := answer
        obtain ⟨out', err, hout, herr, as, bs, heffect, hlen, hcells⟩ :=
          @ih (i + 1) (lims ++ [e])
            { out with
              world := w
              states := out.states.map fun states => update states i (some state)
              commits := out.commits ++ [e] } (max delay delay') h
        refine ⟨out', err, hout, herr, _, _, (effect_commits hcall).trans heffect, ?_, fun c hc => ?_⟩
        · rw [nil_append, hlen, length_append, length_append, length_singleton,
            length_singleton]
          omega
        · rcases mem_append.mp hc with hc | hc
          · exact ⟨e, mem_cons_self, mem_singleton.mp hc⟩
          · obtain ⟨e', he', rfl⟩ := hcells c hc
            exact ⟨e', mem_cons_of_mem _ he', (effect_commits hcall).cell e'⟩

/-! ## What is rolled back -/

/-- Every limiter's key is as it was, and those that committed were uncommitted,
each with its own key. -/
def RolledBack (w : World) (es : List Entry) (out : Combined) : Prop :=
  (∀ e ∈ es, out.world.stored (w.cell e) = w.stored (w.cell e)) ∧ out.uncommits.Perm out.commits

/-- After the dry runs, the last limiter commits, and all others after it; or it
refuses, and is not one that allows no connection, without its key. -/
def Careful (now : Nat) (w : World) (es : List Entry) : Prop :=
  ∀ last ∈ es.getLast?, ∀ w', dryRuns now w es.dropLast = some (none, w') →
    match w'.incoming now last true with
    | none => True
    | some (.error _, _) => ¬ w'.Opens last
    | some (.ok _, w'') => Commits now w'' es.dropLast

theorem rolledBack_same (hsame : ∀ c, w'.stored c = w.stored c)
    {result : Except LimitError Rat} {states : Option (Nat → Option Rat)} :
    RolledBack w es { result, world := w', states, commits := [], uncommits := [] } :=
  ⟨fun _ _ => hsame _, .refl []⟩

/-- **A refused request leaves every limiter as it was exactly when it is refused
before the second pass.** -/
theorem rolledBack_iff {states : Option (Nat → Option Rat)} :
    (∀ out err, combine now w es states = some out → out.result = .error err → RolledBack w es out) ↔
      Careful now w es := by
  unfold combine Careful
  cases hlast : es.getLast? with
  | none =>
    refine ⟨fun _ last h => (by cases h), fun _ out err hout herr => ?_⟩
    cases hout
    cases herr
  | some last =>
    have hmem : last ∈ es := mem_of_getLast? hlast
    simp only [mem_def, some.injEq, forall_eq']
    cases hdry : dryRuns now w es.dropLast with
    | none => exact ⟨fun _ w' h => (by cases h), fun _ out err hout => (by cases hout)⟩
    | some run =>
      obtain ⟨refused, w'⟩ := run
      obtain ⟨hplaces, hsame⟩ := dryRuns_same hdry
      have hcell : ∀ e, w'.cell e = w.cell e := fun e => by rw [World.cell, World.cell, hplaces]
      cases refused with
      | some err =>
        refine ⟨fun _ w' h => (by cases h), fun _ out err hout _ => ?_⟩
        cases hout
        exact rolledBack_same hsame
      | none =>
        dsimp only
        simp only [some.injEq, mk.injEq, true_and, forall_eq']
        cases hcall : w'.incoming now last true with
        | none => exact ⟨fun _ => trivial, fun _ out err hout => (by cases hout)⟩
        | some call =>
          obtain ⟨answer, w''⟩ := call
          cases answer with
          | error err =>
            -- the last limiter refuses
            obtain ⟨v, hsets, ⟨hopens, rfl⟩ | ⟨hopens, hnone, rfl⟩⟩ := incoming_refuses hcall
            · refine ⟨fun _ => hopens, fun _ out err' hout _ => ?_⟩
              cases hout
              exact rolledBack_same fun c => (hsets.same c).trans (hsame c)
            · refine ⟨fun h => ?_, fun h => absurd hopens h⟩
              have hrolled := (h _ err rfl rfl).1 last hmem
              have hhere := hsets.here
              rw [hcell] at hhere hnone
              cases (hhere.symm.trans hrolled).trans ((hsame _).symm.trans hnone)
          | ok answer =>
            obtain ⟨delay, state⟩ := answer
            refine ⟨fun h => ?_, fun h out err hout herr => absurd herr (secondPass_commits h hout)⟩
            by_contra hrefuses
            obtain ⟨out, err, hout, herr, as, bs, heffect, hlen, hcells⟩ :=
              @secondPass_refuses now es.dropLast 1 []
                { result := .ok delay
                  world := w''
                  states := states.map fun states => update states es.length (some state)
                  commits := [last]
                  uncommits := [] } delay hrefuses
            -- the last limiter's commit is one more than the uncommits make up for
            have htotal := (effect_commits hcall).trans heffect
            obtain ⟨c, hc, hchanged⟩ := htotal.changed (by rw [nil_append, hlen]; simp)
            have hentry : ∃ e ∈ es, c = w.cell e := by
              rcases mem_append.mp hc with hc | hc
              · exact ⟨last, hmem, (mem_singleton.mp hc).trans (hcell last)⟩
              · obtain ⟨e, he, rfl⟩ := hcells c hc
                exact ⟨e, mem_of_mem_dropLast he, ((effect_commits hcall).cell e).trans (hcell e)⟩
            obtain ⟨e, he, rfl⟩ := hentry
            exact hchanged (((h out err hout herr).1 e he).trans (hsame _).symm)

/-- Two limiters of connections with one key, the first of which allows one. -/
def sharedKey : World where
  dict := fun _ => Dict.empty
  object := fun i =>
    { dict := 0
      limiter := .conn { max := if i = 0 then 1 else 5, burst := 0, unit_delay := 1, committed := false } }

/-- The connection that the second limiter counted stays. -/
theorem not_rolledBack_sharedKey :
    ¬ ∀ now w es states out err, combine now w es states = some out → out.result = .error err →
      RolledBack w es out := by
  intro h
  have hrefused : (combine 0 sharedKey [⟨0, [97]⟩, ⟨1, [97]⟩] none).map
    (fun out => (out.result, out.world.stored (0, [97]))) =
      some (.error .rejected, some (.number 1)) := by decide +kernel
  obtain ⟨out, hout, hresult⟩ := map_eq_some_iff.mp hrefused
  have hrolled := (h _ _ _ _ out .rejected hout (congrArg fst hresult)).1 ⟨1, [97]⟩ (by decide)
  cases (congrArg snd hresult).symm.trans hrolled

end OpenResty.Resty.LimitTraffic
