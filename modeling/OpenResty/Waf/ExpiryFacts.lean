/-
What the loop over a persisted collection removes, and when that is what has expired.
-/
import OpenResty.Waf.Expiry

namespace OpenResty.Waf

open Lua Lib List
open Option hiding any_eq_true filter_filter

/-! ## What the loop removes -/

theorem hasUnderscores_expireKey (name : String) : hasUnderscores (expireKey name).toList = true := by
  simp [expireKey, hasUnderscores]

/-- The loop can be taken past a key: the text under it has nothing, or a number, for a time. -/
def Readable (data : Tbl) : Scalar → Prop
  | .str k => hasUnderscores k.toList = false →
      ∀ v, data.lookup (.str (expireKey k)) = some v → v = .leaf (.bool false) ∨ ∃ time, v = .leaf (.num time)
  | _ => False

/-- A key that is passed over, one whose variable is removed, or one at which the loop ends. -/
theorem dictExpired_cases (now : Rat) {data : Tbl} {key : Scalar} (hkey : (data.lookup key).isSome) :
    Readable data key ∧ (∃ k, key = .str k ∧ Expired now data k ∧ Storage.dictExpired now data key = .ok (some k)) ∨
    Readable data key ∧ (∀ k, key = .str k → ¬ Expired now data k) ∧ Storage.dictExpired now data key = .ok none ∨
    ¬ Readable data key ∧ ∃ e, Storage.dictExpired now data key = .error e := by
  cases key with
  | num q => exact .inr (.inr ⟨id, _, rfl⟩)
  | bool b => exact .inr (.inr ⟨id, _, rfl⟩)
  | str k =>
    simp only [Storage.dictExpired]
    by_cases hu : hasUnderscores k.toList = true
    · rw [if_pos hu]
      refine .inr (.inl ⟨fun hno => absurd hu (by simp [hno]), ?_, rfl⟩)
      rintro _ ⟨⟩ ⟨-, hno, -⟩
      exact absurd hu (by simp [hno])
    · rw [if_neg hu]
      have hno : hasUnderscores k.toList = false := by simpa using hu
      cases hv : data.lookup (.str (expireKey k)) with
      | none =>
        refine .inr (.inl ⟨fun _ v h => absurd (hv.symm.trans h) (by simp), ?_, rfl⟩)
        rintro _ ⟨⟩ ⟨-, -, t, ht, -⟩
        exact absurd (hv.symm.trans ht) (by simp)
      | some v =>
        have hunreadable : v ≠ .leaf (.bool false) → (∀ t : Rat, v ≠ .leaf (.num t)) → ¬ Readable data (.str k) := by
          intro hfalse hnum h
          rcases h hno v hv with h | ⟨t, h⟩
          · exact hfalse h
          · exact hnum t h
        cases v with
        | table arr hash => exact .inr (.inr ⟨hunreadable (by simp) (by simp), _, rfl⟩)
        | leaf value =>
          cases value with
          | str text => exact .inr (.inr ⟨hunreadable (by simp) (by simp), _, rfl⟩)
          | bool b =>
            cases b with
            | true => exact .inr (.inr ⟨hunreadable (by simp) (by simp), _, rfl⟩)
            | false =>
              refine .inr (.inl ⟨fun _ v h => .inl (some.inj (h.symm.trans hv)), ?_, rfl⟩)
              rintro _ ⟨⟩ ⟨-, -, t, ht, -⟩
              exact absurd (hv.symm.trans ht) (by simp)
          | num t =>
            have hread : Readable data (.str k) := fun _ v h => .inr ⟨t, some.inj (h.symm.trans hv)⟩
            by_cases hlt : t < now
            · exact .inl ⟨hread, k, rfl, ⟨hkey, hno, t, hv, hlt⟩, congrArg Except.ok (if_pos hlt)⟩
            · refine .inr (.inl ⟨hread, ?_, congrArg Except.ok (if_neg hlt)⟩)
              rintro _ ⟨⟩ ⟨-, -, t', ht', hlt'⟩
              cases hv.symm.trans ht'
              exact hlt hlt'

theorem filterMapM_map {α β γ : Type} (g : γ → α) (f : α → Except String (Option β)) (l : List γ) :
    (l.map g).filterMapM f = l.filterMapM fun c => f (g c) := by
  induction l with
  | nil => rfl
  | cons c l ih => rw [map_cons, filterMapM_cons, filterMapM_cons, ih]

theorem dictExpired_of_expired {now : Rat} {data : Tbl} {k : String} (h : Expired now data k) :
    Storage.dictExpired now data (.str k) = .ok (some k) := by
  obtain ⟨-, hno, t, ht, hlt⟩ := h
  simp only [Storage.dictExpired, hno, ht, hlt, Bool.false_eq_true, if_false, if_true]

theorem filterMapM_error {α β : Type} {f : α → Except String (Option β)} {l : List α} {a : α} (ha : a ∈ l)
    {e : String} (h : f a = .error e) : ∃ e, l.filterMapM f = .error e := by
  induction l with
  | nil => cases ha
  | cons b l ih =>
    rw [filterMapM_cons]
    cases hb : f b with
    | error e' => exact ⟨e', rfl⟩
    | ok o =>
      rcases mem_cons.mp ha with rfl | ha
      · rw [h] at hb
        cases hb
      · obtain ⟨e', he'⟩ := ih ha
        cases o <;> exact ⟨e', by simp only [he', bind, Except.bind]⟩

/-- `dictExpire` -/
theorem dictExpire_cases (now : Rat) (data : Tbl) :
    (∀ p ∈ data, Readable data p.1) ∧ (∃ expired : List String, (∀ k, k ∈ expired ↔ Expired now data k) ∧
      Storage.dictExpire now data = .ok (data.filter fun (key, _) => !removed expired key, !expired.isEmpty)) ∨
    ¬ (∀ p ∈ data, Readable data p.1) ∧ ∃ e, Storage.dictExpire now data = .error e := by
  by_cases hread : ∀ p ∈ data, Readable data p.1
  · have hok : ∀ p ∈ data, Storage.dictExpired now data p.1 =
        .ok (Storage.dictExpired now data p.1).toOption.join := by
      intro p hp
      rcases dictExpired_cases now (lookup_isSome_of_mem hp) with ⟨-, k, -, -, h⟩ | ⟨-, -, h⟩ | ⟨hun, -⟩
      · rw [h]
        rfl
      · rw [h]
        rfl
      · exact absurd (hread p hp) hun
    refine .inl ⟨hread, _, fun k => ?_, by rw [Storage.dictExpire, filterMapM_ok hok]; rfl⟩
    rw [mem_filterMap]
    constructor
    · rintro ⟨p, hp, hk⟩
      rcases dictExpired_cases now (lookup_isSome_of_mem hp) with ⟨-, k', -, hexp, h⟩ | ⟨-, -, h⟩ | ⟨hun, -⟩
      · rw [h] at hk
        cases hk
        exact hexp
      · rw [h] at hk
        cases hk
      · exact absurd (hread p hp) hun
    · intro hexp
      obtain ⟨v, hv⟩ := isSome_iff_exists.mp hexp.1
      refine ⟨(.str k, v), mem_of_lookup hv, ?_⟩
      rw [dictExpired_of_expired hexp]
      rfl
  · obtain ⟨p, hp, hun⟩ : ∃ p ∈ data, ¬ Readable data p.1 := by simpa using hread
    refine .inr ⟨hread, ?_⟩
    rcases dictExpired_cases now (lookup_isSome_of_mem hp) with ⟨h, -⟩ | ⟨h, -⟩ | ⟨-, e, he⟩
    · exact absurd h hun
    · exact absurd h hun
    · obtain ⟨e', he'⟩ := filterMapM_error (f := fun p => Storage.dictExpired now data p.1) hp he
      exact ⟨e', by rw [Storage.dictExpire, he']; rfl⟩

/-- A key that is not removed is judged as at the start. -/
theorem dictExpired_filter {now : Rat} {data : Tbl} {es : List String} (hes : ∀ e ∈ es, Expired now data e)
    {key : Scalar} (hkey : removed es key = false) :
    Storage.dictExpired now (data.filter fun (key, _) => !removed es key) key = Storage.dictExpired now data key := by
  cases key with
  | num q => rfl
  | bool b => rfl
  | str k =>
    simp only [Storage.dictExpired]
    split
    · rfl
    · next hu =>
      have hkept : removed es (.str (expireKey k)) = false := by
        rw [Bool.eq_false_iff] at hkey ⊢
        intro h
        obtain ⟨e, he, heq⟩ := any_eq_true.mp h
        refine hkey (any_eq_true.mpr ⟨e, he, ?_⟩)
        simp only [str_beq, Bool.or_eq_true, beq_iff_eq] at heq ⊢
        rcases heq with rfl | heq
        · exact absurd (hes _ he).2.1 (by simp [hasUnderscores_expireKey])
        · exact .inl (expireKey_injective heq)
      rw [lookup_filter_key (p := fun key => !removed es key), hkept]
      rfl

theorem expireLoop_run {now : Rat} {data : Tbl} {keys : List Scalar} (hkeys : ∀ key ∈ keys, (data.lookup key).isSome)
    {es : List String} (hes : ∀ e ∈ es, Expired now data e) :
    expireLoop now keys (data.filter fun (key, _) => !removed es key) (!es.isEmpty) = (do
      let more ← keys.filterMapM (Storage.dictExpired now data)
      return (data.filter fun (key, _) => !removed (es ++ more) key, !(es ++ more).isEmpty)) := by
  induction keys generalizing es with
  | nil =>
    rw [expireLoop, filterMapM_nil, pure_bind, append_nil]
    rfl
  | cons key keys ih =>
    have hkey := hkeys key mem_cons_self
    have hrest : ∀ k ∈ keys, (data.lookup k).isSome := fun k hk => hkeys k (mem_cons_of_mem _ hk)
    have hlookup : (data.filter fun (key, _) => !removed es key).lookup key =
        if removed es key then none else data.lookup key := by
      rw [lookup_filter_key (p := fun key => !removed es key)]
      cases removed es key <;> rfl
    rw [expireLoop, hlookup, filterMapM_cons]
    cases hremoved : removed es key with
    | true =>
      simp only [if_true, isNone_none]
      rw [ih hrest hes]
      obtain ⟨e, he, heq⟩ := any_eq_true.mp hremoved
      simp only [Bool.or_eq_true, beq_iff_eq] at heq
      rcases heq with rfl | rfl
      · have hsame : ∀ more, (data.filter fun (key, _) => !removed (es ++ more) key, !(es ++ more).isEmpty) =
            (data.filter fun (key, _) => !removed (es ++ e :: more) key, !(es ++ e :: more).isEmpty) := by
          intro more
          have hmem : ∀ k, k ∈ es ++ more ↔ k ∈ es ++ e :: more := fun k => by
            simp only [mem_append, mem_cons]
            exact ⟨fun h => h.imp_right .inr, fun h => h.elim .inl fun h => h.elim (fun h => .inl (h ▸ he)) .inr⟩
          rw [isEmpty_congr hmem]
          simp only [removed_congr hmem]
        rw [dictExpired_of_expired (hes e he)]
        cases keys.filterMapM (Storage.dictExpired now data) with
        | error e' => rfl
        | ok more => exact congrArg Except.ok (hsame more)
      · have hpassed : Storage.dictExpired now data (.str (expireKey e)) = .ok none :=
          if_pos (hasUnderscores_expireKey e)
        rw [hpassed]
        rfl
    | false =>
      obtain ⟨v, hv⟩ := isSome_iff_exists.mp hkey
      rw [if_neg (by simp [hv])]
      rw [dictExpired_filter hes hremoved]
      rcases dictExpired_cases now hkey with ⟨-, k, rfl, hexp, h⟩ | ⟨-, -, h⟩ | ⟨-, e, h⟩
      · rw [h]
        have hes' : ∀ e ∈ es ++ [k], Expired now data e := by
          simpa [or_imp, forall_and] using ⟨hes, hexp⟩
        have hfilter : unassign (unassign (data.filter fun (key, _) => !removed es key) (.str (expireKey k)))
          (.str k) =
            data.filter fun (key, _) => !removed (es ++ [k]) key := by
          unfold unassign
          rw [filter_filter, filter_filter]
          refine filter_congr fun p _ => ?_
          simp only [removed, any_append, any_cons, any_nil, bne, Bool.or_false, Bool.not_or]
          rw [Bool.and_comm, Bool.and_comm (!(p.1 == _))]
        have hflag : true = !(es ++ [k]).isEmpty := by simp
        dsimp only
        rw [hfilter, hflag, ih hrest hes']
        cases keys.filterMapM (Storage.dictExpired now data) with
        | error e => rfl
        | ok more =>
          simp only [append_assoc]
          rfl
      · rw [h]
        exact ih hrest hes
      · rw [h]
        rfl

/-- The loop removes what `dictExpire` does. -/
theorem expireLoop_eq (now : Rat) (data : Tbl) :
    expireLoop now (data.map Prod.fst) data false = Storage.dictExpire now data := by
  have hkeys : ∀ key ∈ data.map Prod.fst, (data.lookup key).isSome := by
    intro key hkey
    obtain ⟨p, hp, rfl⟩ := mem_map.mp hkey
    exact lookup_isSome_of_mem hp
  have hmap : (data.map Prod.fst).filterMapM (Storage.dictExpired now data) =
      data.filterMapM fun p => Storage.dictExpired now data p.1 := by
    simp only [filterMapM_map]
  have hnone : (data.filter fun (key, _) => !removed [] key) = data := filter_eq_self.mpr fun _ _ => rfl
  have hexpired : ∀ e ∈ [], Expired now data e := fun e he => absurd he not_mem_nil
  have hrun := expireLoop_run hkeys hexpired
  rw [hnone, hmap] at hrun
  exact hrun

/-! ## After a collection is loaded -/

/-- What is wanted of the table in which variables and times are loaded. -/
structure Recorded.Loaded (c : Recorded) (now : Rat) (t : Tbl) : Prop where
  expired : ∀ name time, c.expires name = some time → time < now → (c.vars name).isSome → t.lookup (.str name) = none
  kept : ∀ name v, c.vars name = some v → (∀ time, c.expires name = some time → ¬ time < now) →
    t.lookup (.str name) = some v
  matched : ∀ name, (c.expires name).isSome → (t.lookup (.str (expireKey name))).isSome →
    (c.vars name).isSome ∧ (t.lookup (.str name)).isSome

def Persisted.Loaded (now : Rat) (t : Tbl) : Persisted → Prop
  | .object c => c.Loaded now t
  | .array items => ∀ (i : Nat) v, items[i]? = some v → t.lookup (.num (i + 1 : Nat)) = some v

/-- The collection is loaded with what has expired left out, and nothing else. -/
def ExpiryRight (b : TextBackend) (s : Storage) (now : Rat) (col : Scalar) (p : Persisted) : Prop :=
  ∃ s' a, b.initialize s now col = .ok s' ∧ s'.storage.lookup col = some a ∧ p.Loaded now (s'.heap a)

/-- Each time is that of a variable, of one without underscores if it is past; and what a
variable without underscores has under its prefixed name as a variable is no past time. -/
structure Recorded.Careful (c : Recorded) (now : Rat) : Prop where
  owned : ∀ name time, c.expires name = some time →
    (c.vars name).isSome ∧ (time < now → hasUnderscores name.toList = false)
  unmistaken : ∀ name, (c.vars name).isSome → hasUnderscores name.toList = false →
    ∀ v, c.vars (expireKey name) = some v → v = .leaf (.bool false) ∨ ∃ time, v = .leaf (.num time) ∧ ¬ time < now

def Persisted.Careful (now : Rat) : Persisted → Prop
  | .object c => c.Careful now
  | .array items => items = []

/-- Nothing is left of the collection. -/
def Persisted.Gone (now : Rat) : Persisted → Prop
  | .object c => ∀ name v, c.vars name = some v → ∃ time, c.expires name = some time ∧ time < now
  | .array items => items = []

/-- The text can be fetched and is one the loop reads as it was meant, or nothing is left of it. -/
def ExpiryCareful (b : TextBackend) (now : Rat) (p : Persisted) : Prop :=
  (b.Answers → p.Careful now) ∧ (¬ b.Answers → p.Gone now)

namespace Recorded

variable {c : Recorded} {data : Tbl} (h : c.Holds data)

include h

variable {name : String}

theorem Holds.var {v : Val} (hv : c.vars name = some v) : data.lookup (.str name) = some v :=
  (h _ _).mpr ⟨name, .inl ⟨rfl, hv⟩⟩

theorem Holds.time {time : Rat} (ht : c.expires name = some time) :
    data.lookup (.str (expireKey name)) = some (.leaf (.num time)) :=
  (h _ _).mpr ⟨name, .inr ⟨rfl, time, ht, rfl⟩⟩

theorem Holds.plain (hno : hasUnderscores name.toList = false)
    (hsome : (data.lookup (.str name)).isSome) : (c.vars name).isSome := by
  obtain ⟨v, hv⟩ := isSome_iff_exists.mp hsome
  obtain ⟨n, ⟨hn, hv⟩ | ⟨hn, -⟩⟩ := (h _ _).mp hv
  · cases hn
    rw [hv]
    rfl
  · cases hn
    simp [hasUnderscores_expireKey] at hno

/-- What stands under a prefixed name is a variable or a time. -/
theorem Holds.prefixed {v : Val} (hv : data.lookup (.str (expireKey name)) = some v) :
    c.vars (expireKey name) = some v ∨ ∃ time, c.expires name = some time ∧ v = .leaf (.num time) := by
  obtain ⟨n, ⟨hn, hv⟩ | ⟨hn, htime⟩⟩ := (h _ _).mp hv
  · cases hn
    exact .inl hv
  · cases expireKey_injective (Scalar.str.inj hn)
    exact .inr htime

end Recorded

section

variable {c : Recorded} {data t : Tbl} {now : Rat} {expired : List String} (h : c.Holds data)
  (hmem : ∀ k, k ∈ expired ↔ Expired now data k) (hloaded : Loaded data expired t)

include hmem

theorem removed_iff (k : String) :
    removed expired (.str k) = true ↔ Expired now data k ∨ ∃ name, k = expireKey name ∧ Expired now data name := by
  simp only [removed, any_eq_true, Bool.or_eq_true, beq_iff_eq, Scalar.str.injEq, hmem]
  constructor
  · rintro ⟨e, he, rfl | rfl⟩
    · exact .inl he
    · exact .inr ⟨e, rfl, he⟩
  · rintro (he | ⟨name, rfl, he⟩)
    · exact ⟨k, he, .inl rfl⟩
    · exact ⟨name, he, .inr rfl⟩

include h hloaded

omit hmem hloaded in
theorem expired_iff_of_careful (hcareful : c.Careful now) (name : String) :
    Expired now data name ↔ ∃ time, c.expires name = some time ∧ time < now := by
  constructor
  · rintro ⟨hsome, hno, t, ht, hlt⟩
    rcases h.prefixed ht with hv | ⟨time, htime, heq⟩
    · rcases hcareful.unmistaken name (h.plain hno hsome) hno _ hv with hfalse | ⟨time, heq, hnot⟩
      · cases hfalse
      · cases heq
        exact absurd hlt hnot
    · cases heq
      exact ⟨t, htime, hlt⟩
  · rintro ⟨time, htime, hlt⟩
    obtain ⟨hvar, hno⟩ := hcareful.owned name time htime
    obtain ⟨v, hv⟩ := isSome_iff_exists.mp hvar
    refine ⟨?_, hno hlt, time, h.time htime, hlt⟩
    rw [h.var hv]
    rfl

theorem loaded_of_careful (hcareful : c.Careful now) : c.Loaded now t := by
  have hremoved := removed_iff hmem
  simp only [expired_iff_of_careful h hcareful] at hremoved
  have hflag : ∀ name, (c.vars name).isSome → Scalar.str name ≠ altered := by
    intro name hvar heq
    cases heq
    rw [c.unflagged] at hvar
    cases hvar
  -- a variable is not removed as the time of another
  have hstays : ∀ name v, c.vars name = some v → (∀ time, c.expires name = some time → ¬ time < now) →
      t.lookup (.str name) = some v := by
    intro name v hv hpast
    rw [hloaded.other _ (hflag name (by rw [hv]; rfl)), if_neg, h.var hv]
    intro hr
    rcases (hremoved name).mp hr with ⟨time, htime, hlt⟩ | ⟨n, rfl, time, htime, -⟩
    · exact hpast time htime hlt
    · rw [c.single n (by rw [htime]; rfl)] at hv
      cases hv
  refine ⟨fun name time htime hlt hvar => ?_, hstays, fun name htime hleft => ?_⟩
  · rw [hloaded.other _ (hflag name hvar), if_pos ((hremoved name).mpr (.inl ⟨time, htime, hlt⟩))]
  · obtain ⟨time, htime⟩ := isSome_iff_exists.mp htime
    have hvar := (hcareful.owned name time htime).1
    obtain ⟨v, hv⟩ := isSome_iff_exists.mp hvar
    refine ⟨hvar, ?_⟩
    rw [hstays name v hv, isSome_some]
    intro time' htime' hlt
    rw [hloaded.other _ fun heq => expireKey_ne_altered name (Scalar.str.inj heq),
      if_pos ((hremoved _).mpr (.inr ⟨name, rfl, time', htime', hlt⟩))] at hleft
    cases hleft

theorem careful_of_loaded (hread : ∀ p ∈ data, Readable data p.1) (hright : c.Loaded now t) : c.Careful now := by
  have hremoved := removed_iff hmem
  have hflag : ∀ name, (c.vars name).isSome → Scalar.str name ≠ altered := by
    intro name hvar heq
    cases heq
    rw [c.unflagged] at hvar
    cases hvar
  have hunmistaken : ∀ name, (c.vars name).isSome → hasUnderscores name.toList = false →
      ∀ v, c.vars (expireKey name) = some v →
        v = .leaf (.bool false) ∨ ∃ time, v = .leaf (.num time) ∧ ¬ time < now := by
    intro name hvar hno v hv
    obtain ⟨w, hw⟩ := isSome_iff_exists.mp hvar
    refine (hread (.str name, w) (mem_of_lookup (h.var hw)) hno v (h.var hv)).imp_right ?_
    rintro ⟨time, rfl⟩
    refine ⟨time, rfl, fun hlt => ?_⟩
    have hexp : Expired now data name := ⟨by rw [h.var hw]; rfl, hno, time, h.var hv, hlt⟩
    have hgone : t.lookup (.str name) = none := by
      rw [hloaded.other _ (hflag name hvar), if_pos ((hremoved name).mpr (.inl hexp))]
    have hkept := hright.kept name w hw fun time' htime' => by
      have hnone := c.single name (by rw [htime']; rfl)
      rw [hv] at hnone
      cases hnone
    rw [hgone] at hkept
    cases hkept
  refine ⟨fun name time htime => ?_, hunmistaken⟩
  have hvar : (c.vars name).isSome := by
    by_contra hnot
    have hgone : t.lookup (.str (expireKey name)) = none := by
      by_contra hleft
      exact hnot (hright.matched name (by rw [htime]; rfl) (isSome_iff_ne_none.mpr hleft)).1
    rw [hloaded.other _ fun heq => expireKey_ne_altered name (Scalar.str.inj heq)] at hgone
    split at hgone
    · next hr =>
      rcases (hremoved _).mp hr with hexp | ⟨n, heq, hexp⟩
      · exact absurd hexp.2.1 (by simp [hasUnderscores_expireKey])
      · cases expireKey_injective heq
        exact hnot (h.plain hexp.2.1 hexp.1)
    · rw [h.time htime] at hgone
      cases hgone
  refine ⟨hvar, fun hlt => ?_⟩
  by_contra hunder
  have hgone := hright.expired name time htime hlt hvar
  obtain ⟨v, hv⟩ := isSome_iff_exists.mp hvar
  rw [hloaded.other _ (hflag name hvar)] at hgone
  split at hgone
  · next hr =>
    rcases (hremoved _).mp hr with hexp | ⟨n, rfl, hexp⟩
    · exact hunder hexp.2.1
    · obtain ⟨hsome, hno, time', htime', hlt'⟩ := hexp
      rcases hunmistaken n (h.plain hno hsome) hno v hv with rfl | ⟨time'', rfl, hnot⟩
      · cases (h.var hv).symm.trans htime'
      · cases (h.var hv).symm.trans htime'
        exact hnot hlt'
  · rw [h.var hv] at hgone
    cases hgone

end

/-! ## Both backends -/

section

variable {b : TextBackend} {s : Storage} {col : Scalar} {data : Tbl} (htext : b.text s col = some data) (now : Rat)

include htext

theorem initialize_answered (hanswers : b.Answers) : b.initialize s now col = (do
    let (data, changed) ← Storage.dictExpire now data
    return s.newTable col (assign data altered (.leaf (.bool changed)))) := by
  cases b with
  | dict => simp only [ TextBackend.initialize, Storage.dictInitialize,
      show s.shm (colName col) = some data from htext]
  | memcached server =>
    simp only [ TextBackend.initialize, Storage.memcachedInitialize, hanswers.1, hanswers.2,
      show server.texts (colName col) = some data from htext, expireLoop_eq]

omit htext in
theorem initialize_unanswered (hanswers : ¬ b.Answers) : b.initialize s now col = .ok (s.newTable col []) := by
  cases b with
  | dict => exact absurd trivial hanswers
  | memcached server =>
    simp only [ TextBackend.initialize, Storage.memcachedInitialize]
    cases hconnect : server.connect with
    | some e => rfl
    | none =>
      cases hget : server.get with
      | some e => rfl
      | none => exact absurd ⟨hconnect, hget⟩ hanswers

end

theorem newTable_right {s : Storage} {now : Rat} {col : Scalar} {p : Persisted} {b : TextBackend} {t : Tbl}
    (h : b.initialize s now col = .ok (s.newTable col t)) : ExpiryRight b s now col p ↔ p.Loaded now t := by
  have hlookup : (s.newTable col t).storage.lookup col = some s.next := by
    simp only [Storage.newTable, lookup_assign, if_true]
  have hheap : (s.newTable col t).heap s.next = t := Function.update_self ..
  constructor
  · rintro ⟨s', a, hrun, ha, hloaded⟩
    cases h.symm.trans hrun
    cases hlookup.symm.trans ha
    rwa [hheap] at hloaded
  · intro hloaded
    exact ⟨_, _, h, hlookup, by rwa [hheap]⟩

theorem loaded_assign (data : Tbl) (expired : List String) :
    Loaded data expired (assign (data.filter fun (key, _) => !removed expired key) altered
      (.leaf (.bool !expired.isEmpty))) := by
  refine ⟨by rw [lookup_assign, if_pos rfl], fun key hkey => ?_⟩
  rw [lookup_assign, if_neg hkey, lookup_filter_key (p := fun key => !removed expired key)]
  cases removed expired key <;> rfl

theorem readable_of_careful {c : Recorded} {data : Tbl} (h : c.Holds data) {now : Rat} (hcareful : c.Careful now) :
    ∀ p ∈ data, Readable data p.1 := by
  intro p hp
  have hsome := lookup_isSome_of_mem hp
  obtain ⟨v, hv⟩ := isSome_iff_exists.mp hsome
  obtain ⟨k, hk⟩ : ∃ k, p.1 = .str k := by
    obtain ⟨n, ⟨hn, -⟩ | ⟨hn, -⟩⟩ := (h _ _).mp hv <;> exact ⟨_, hn⟩
  rw [hk] at hsome ⊢
  intro hno w hw
  rcases h.prefixed hw with hvar | ⟨time, -, rfl⟩
  · rcases hcareful.unmistaken k (h.plain hno hsome) hno w hvar with hfalse | ⟨time, heq, -⟩
    · exact .inl hfalse
    · exact .inr ⟨time, heq⟩
  · exact .inr ⟨time, rfl⟩

/-- An array can be read only if it is empty. -/
theorem readable_array {items : List Val} {data : Tbl} (h : (Persisted.array items).Decoded data) :
    (∀ p ∈ data, Readable data p.1) ↔ items = [] := by
  constructor
  · intro hread
    cases items with
    | nil => rfl
    | cons v items =>
      have hfirst : data.lookup (.num (0 + 1 : Nat)) = some v := (h _ v).mpr ⟨0, rfl, rfl⟩
      exact (hread _ (mem_of_lookup hfirst)).elim
  · rintro rfl p hp
    obtain ⟨v, hv⟩ := isSome_iff_exists.mp (lookup_isSome_of_mem hp)
    obtain ⟨i, -, hi⟩ := (h _ v).mp hv
    cases hi

/-- **A persisted collection is loaded without its expired variables, with all others and
with no time left over exactly if the condition holds.** -/
theorem expiry_right_iff {b : TextBackend} {s : Storage} {col : Scalar} {data : Tbl} {p : Persisted}
    (htext : b.text s col = some data) (hdata : p.Decoded data) (now : Rat) :
    ExpiryRight b s now col p ↔ ExpiryCareful b now p := by
  unfold ExpiryCareful
  by_cases hanswers : b.Answers
  · have hrun := initialize_answered htext now hanswers
    simp only [hanswers, forall_true_left, not_true_eq_false, false_implies, and_true]
    rcases dictExpire_cases now data with ⟨hread, expired, hmem, hok⟩ | ⟨hread, e, herror⟩
    · rw [hok] at hrun
      rw [newTable_right hrun]
      cases p with
      | object c =>
        exact ⟨careful_of_loaded hdata hmem (loaded_assign data expired) hread,
          loaded_of_careful hdata hmem (loaded_assign data expired)⟩
      | array items =>
        cases (readable_array hdata).mp hread
        exact iff_of_true (fun i v hi => by cases hi) rfl
    · rw [herror] at hrun
      refine iff_of_false ?_ fun hcareful => hread ?_
      · rintro ⟨s', a, h, -⟩
        cases hrun.symm.trans h
      · cases p with
        | object c => exact readable_of_careful hdata hcareful
        | array items => exact (readable_array hdata).mpr hcareful
  · rw [newTable_right (initialize_unanswered now hanswers)]
    simp only [hanswers, false_implies, not_false_eq_true, forall_true_left, true_and]
    cases p with
    | array items =>
      constructor
      · intro h
        refine eq_nil_iff_length_eq_zero.mpr (Nat.eq_zero_of_not_pos fun hpos => ?_)
        cases h 0 _ (getElem?_eq_getElem hpos)
      · rintro rfl i v hi
        cases hi
    | object c =>
      constructor
      · intro h name v hv
        by_contra hnot
        cases h.kept name v hv fun time htime hlt => hnot ⟨time, htime, hlt⟩
      · intro hgone
        refine ⟨fun _ _ _ _ _ => rfl, fun name v hv hpast => ?_, fun _ _ h => by cases h⟩
        obtain ⟨time, htime, hlt⟩ := hgone name v hv
        exact absurd hlt (hpast time htime)

/-! ## Examples -/

def Recorded.empty : Recorded where
  vars _ := none
  expires _ := none
  single _ _ := rfl
  unflagged := rfl

theorem holds_empty : Recorded.empty.Holds (unassign [] altered) := by
  intro key v
  refine iff_of_false (fun h => by cases h) ?_
  rintro ⟨name, ⟨-, h⟩ | ⟨-, time, h, -⟩⟩ <;> cases h

/-- A counter, set and then given five seconds at the time 0. -/
def counter (name : String) : Recorded := (Recorded.empty.set name (.leaf (.num 1))).expire name 5

/-- The data of a collection with one counter. -/
def counterData (name : String) : Tbl := [(.str name, .leaf (.num 1)), (.str (expireKey name), .leaf (.num 5))]

/-- A dictionary in which that is what is kept for every collection. -/
def counterStorage (name : String) : Storage := { Storage.empty .dict with shm := fun _ => some (counterData name) }

theorem decoded_counter {name : String} (hname : name ≠ "__altered") (hself : name ≠ expireKey name) :
    (Persisted.object (counter name)).Decoded (counterData name) := by
  have hset : (Recorded.empty.set name (.leaf (.num 1))).Holds _ :=
    holds_empty.set (.leaf (.num 1)) (.leaf (.bool true))
  have hexpire : (counter name).Holds _ := hset.expire 5 (.leaf (.bool true))
  have hflag : "__altered" ≠ expireKey name := (expireKey_ne_altered name).symm
  simpa [Persisted.Decoded, counterData, assign, unassign, altered, hname, hself, hflag, hflag.symm] using hexpire

/-- A counter with two underscores in its name outlives its time. -/
theorem expiry_not_right :
    ¬ ∀ (b : TextBackend) (s : Storage) (now : Rat) (col : Scalar) (data : Tbl) (p : Persisted),
      b.text s col = some data → p.Decoded data → ExpiryRight b s now col p := by
  intro h
  have hright := h .dict (counterStorage "hits__min") 10 (.str "1.2.3.4") _ _ rfl
    (decoded_counter (by decide) (by decide))
  have hrun : TextBackend.dict.initialize (counterStorage "hits__min") 10 (.str "1.2.3.4") =
      .ok ((counterStorage "hits__min").newTable (.str "1.2.3.4")
        (counterData "hits__min" ++ [(altered, .leaf (.bool false))])) := by
    rfl
  have hgone := ((newTable_right hrun).mp hright).expired "hits__min" 5 (by rfl) (by decide) (by rfl)
  cases hgone

theorem expiry_right_iff_counter :
    (TextBackend.dict.text (counterStorage "hits") (.str "1.2.3.4") = some (counterData "hits") ∧
      (Persisted.object (counter "hits")).Decoded (counterData "hits")) ∧
    (ExpiryRight .dict (counterStorage "hits") 10 (.str "1.2.3.4") (.object (counter "hits")) ↔
      ExpiryCareful .dict 10 (.object (counter "hits"))) :=
  ⟨⟨rfl, decoded_counter (by decide) (by decide)⟩, expiry_right_iff rfl (decoded_counter (by decide) (by decide)) 10⟩

end OpenResty.Waf
