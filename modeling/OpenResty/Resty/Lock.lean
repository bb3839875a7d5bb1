/-
`resty.lock`: a key of a shared dictionary, added with an expiry, as a lock.

An object goes on to hold its lock when the entry in the dictionary has expired
and another object has added its own. Nothing tells it so: it can still delete
or replace the entry of the other.
-/
import Mathlib.Data.Rat.Floor
import OpenResty.Lib.Transition

namespace OpenResty.Resty.Lock

open Lib.Transition Function Option

variable {K ι : Type} [DecidableEq K] [DecidableEq ι]

/-! ## The dictionary -/

/-- The entries, all of them `true`, with the millisecond in which each expires,
or 0. -/
abbrev Dict (K : Type) := K → Option Nat

def expiresAt (now : Nat) (exptime : Rat) : Nat := if ⌊exptime * 1000⌋₊ = 0 then 0 else now + ⌊exptime * 1000⌋₊

def lookup (dict : Dict K) (now : Nat) (key : K) :
    Option Nat := (dict key).filter fun expires => expires = 0 ∨ now ≤ expires

inductive DictError
  | exists
  | noMemory
  | notFound

def add (dict : Dict K) (now : Nat) (memory : Bool) (key : K) (exptime : Rat) : Except DictError Unit × Dict K :=
  match lookup dict now key with
  | some _ => (.error .exists, dict)
  | none =>
    if memory then (.ok (), update dict key (some (expiresAt now exptime))) else (.error .noMemory, dict)

def replace (dict : Dict K) (now : Nat) (key : K) (exptime : Rat) : Except DictError Unit × Dict K :=
  match lookup dict now key with
  | some _ => (.ok (), update dict key (some (expiresAt now exptime)))
  | none => (.error .notFound, dict)

def delete (dict : Dict K) (key : K) : Dict K := update dict key none

/-! ## Lock objects -/

/-- Times in seconds -/
structure Opts where
  timeout : Option Rat
  exptime : Option Rat
  step : Option Rat
  ratio : Option Rat
  max_step : Option Rat

/-- The loop in `lock` -/
structure Wait (K : Type) where
  key : K
  step : Rat
  timeout : Rat
  elapsed : Rat

structure Obj (K : Type) where
  exptime : Rat
  timeout : Rat
  step : Rat
  ratio : Rat
  max_step : Rat
  /-- the key in `memo`, when `cdata.key_id` is above 0 -/
  held : Option K
  key : Option K
  waiting : Option (Wait K)
  /-- when the entry that the object last added or replaced expires, or 0 -/
  lease : Nat

def new (opts : Opts) : Obj K :=
  let exptime := opts.exptime.getD 30
  let timeout := opts.timeout.map (min · exptime)
  let step :=
    match timeout with
    | some timeout => opts.step.map (min · timeout)
    | none => opts.step
  { exptime
    timeout := timeout.getD 5
    step := step.getD (1 / 1000)
    ratio := opts.ratio.getD 2
    max_step := opts.max_step.getD (1 / 2)
    held := none
    key := none
    waiting := none
    lease := 0 }

inductive Ret
  | elapsed (t : Rat)
  | done
  | locked
  | unlocked
  | timeout
  | err (e : DictError)
  /-- the thread sleeps -/
  | sleeps

/-- The key is the object's. -/
def Obj.take (self : Obj K) (now : Nat) (key : K) : Obj K :=
  { self with held := some key, key := some key, waiting := none, lease := expiresAt now self.exptime }

def lock (self : Obj K) (now : Nat) (dict : Dict K) (memory : Bool) (key : K) : Ret × Obj K × Dict K :=
  if self.held.isSome then (.locked, self, dict)
  else
    match add dict now memory key self.exptime with
    | (.ok _, dict) => (.elapsed 0, self.take now key, dict)
    | (.error .exists, dict) =>
      if 0 < self.timeout then
        (.sleeps, { self with waiting := some { key, step := self.step, timeout := self.timeout, elapsed := 0 } }, dict)
      else (.timeout, self, dict)
    | (.error e, dict) => (.err e, self, dict)

/-- The loop in `lock`, after `sleep` -/
def wake (self : Obj K) (now : Nat) (dict : Dict K) (memory : Bool) (w : Wait K) : Ret × Obj K × Dict K :=
  let elapsed := w.elapsed + w.step
  let timeout := w.timeout - w.step
  match add dict now memory w.key self.exptime with
  | (.ok _, dict) => (.elapsed elapsed, self.take now w.key, dict)
  | (.error .exists, dict) =>
    if timeout ≤ 0 then (.timeout, { self with waiting := none }, dict)
    else
      let step := min (min (max (1 / 1000) (w.step * self.ratio)) timeout) self.max_step
      (.sleeps, { self with waiting := some { key := w.key, step, timeout, elapsed } }, dict)
  | (.error e, dict) => (.err e, { self with waiting := none }, dict)

def unlock (self : Obj K) (dict : Dict K) : Ret × Obj K × Dict K :=
  match self.held with
  | none => (.unlocked, self, dict)
  | some key => (.done, { self with held := none }, delete dict key)

def expire (self : Obj K) (now : Nat) (dict : Dict K) (time : Option Rat) : Ret × Obj K × Dict K :=
  match self.held, self.key with
  | some _, some key =>
    let time := time.getD self.exptime
    match replace dict now key time with
    | (.ok _, dict) => (.done, { self with lease := expiresAt now time }, dict)
    | (.error e, dict) => (.err e, self, dict)
  | _, _ => (.unlocked, self, dict)

def gc_lock (self : Obj K) (dict : Dict K) : Obj K × Dict K :=
  match self.held with
  | none => (self, dict)
  | some key => ({ self with held := none }, delete dict key)

/-! ## Workers -/

structure Workers (ι K : Type) where
  now : Nat
  dict : Dict K
  lock : ι → Obj K

inductive Event (ι K : Type)
  | lock (i : ι) (key : K) (memory : Bool)
  | wake (i : ι) (memory : Bool)
  | unlock (i : ι)
  | expire (i : ι) (time : Option Rat)
  | gc (i : ι)
  | elapse (ms : Nat)
  /-- the dictionary drops an expired entry -/
  | purge (key : K)

/-- What becomes of an object and the dictionary. -/
def Workers.put (s : Workers ι K) (i : ι) (out : Obj K × Dict K) : Workers ι K :=
  { s with lock := update s.lock i out.1, dict := out.2 }

/-- A thread that sleeps in `lock` does nothing else with its object. -/
def step (s : Workers ι K) : Event ι K → Option (Workers ι K)
  | .lock i key memory =>
    if (s.lock i).waiting.isSome then none else some (s.put i (lock (s.lock i) s.now s.dict memory key).2)
  | .wake i memory => (s.lock i).waiting.map fun w => s.put i (wake (s.lock i) s.now s.dict memory w).2
  | .unlock i => if (s.lock i).waiting.isSome then none else some (s.put i (unlock (s.lock i) s.dict).2)
  | .expire i time =>
    if (s.lock i).waiting.isSome then none else some (s.put i (expire (s.lock i) s.now s.dict time).2)
  | .gc i => if (s.lock i).waiting.isSome then none else some (s.put i (gc_lock (s.lock i) s.dict))
  | .elapse ms => some { s with now := s.now + ms }
  | .purge key =>
    some { s with dict := update s.dict key ((s.dict key).filter fun expires => expires = 0 ∨ s.now < expires) }

def start (now : Nat) (opts : ι → Opts) : Workers ι K := { now, dict := fun _ => none, lock := fun i => new (opts i) }

/-! ## Leases -/

/-- The object believes that it holds `key`, under a lease that has not expired. -/
def Obj.Leased (self : Obj K) (now : Nat) (key : K) :
    Prop := self.held = some key ∧ (self.lease = 0 ∨ now < self.lease)

def Exclusive (s : Workers ι K) : Prop :=
  ∀ key i j, (s.lock i).Leased s.now key → (s.lock j).Leased s.now key → i = j

/-- The object that releases or prolongs a lock -/
def Event.releaser : Event ι K → Option ι
  | .unlock i | .expire i _ | .gc i => some i
  | _ => none

/-- At most one object has a lease on a key, and a release by an object without
a lease leaves the entries of all that have one. -/
def Right (s : Workers ι K) (e : Event ι K) : Prop :=
  ∀ s', step s e = some s' → Exclusive s' ∧
    ∀ i ∈ e.releaser, (∀ key, ¬ (s.lock i).Leased s.now key) → ∀ j key, (s.lock j).Leased s.now key →
      s'.dict key = s.dict key

/-- An object that releases or prolongs its lock still has its lease, or nobody
else has one. -/
def Careful (s : Workers ι K) (e : Event ι K) : Prop :=
  ∀ i ∈ e.releaser, ∀ key ∈ (s.lock i).held, (s.lock i).Leased s.now key ∨ ∀ j, ¬ (s.lock j).Leased s.now key

/-- A lease is that of the entry in the dictionary. -/
structure Inv (s : Workers ι K) : Prop where
  entry : ∀ i key, (s.lock i).Leased s.now key → s.dict key = some (s.lock i).lease
  exclusive : Exclusive s
  keyed : ∀ i key, (s.lock i).held = some key → (s.lock i).key = some key

variable {s s' : Workers ι K} {e : Event ι K} {i j : ι} {key : K} {now ms : Nat} {dict : Dict K}

variable {out : Obj K × Dict K}

omit [DecidableEq K] in
@[simp] theorem put_self : (s.put i out).lock i = out.1 := update_self ..

omit [DecidableEq K] in
@[simp] theorem put_ne (h : j ≠ i) :
    (s.put i out).lock j = s.lock j := update_of_ne h ..

theorem leased_expiresAt (now : Nat) (exptime : Rat) : expiresAt now exptime = 0 ∨ now < expiresAt now exptime := by
  unfold expiresAt
  split
  · exact .inl rfl
  · exact .inr (by omega)

omit [DecidableEq K] in
theorem lookup_leased {expires : Nat} (h : dict key = some expires) (hlease : expires = 0 ∨ now < expires) :
    lookup dict now key = some expires := by
  unfold lookup
  rw [h, filter_some, if_pos]
  exact decide_eq_true (hlease.imp_right Nat.le_of_lt)

omit [DecidableEq K] [DecidableEq ι] in
theorem Inv.lookup (h : Inv s) (hleased : (s.lock i).Leased s.now key) :
    Lock.lookup s.dict s.now key = some (s.lock i).lease :=
  lookup_leased (h.entry i key hleased) hleased.2

omit [DecidableEq K] [DecidableEq ι] in
theorem inv_start (now : Nat) (opts : ι → Opts) : Inv (start now opts : Workers ι K) where
  entry _ _ h := by cases h.1
  exclusive _ _ _ h := by cases h.1
  keyed _ _ h := by cases h

omit [DecidableEq K] [DecidableEq ι] in
/-- Nobody takes a lock, and the entries of those that have one stay. -/
theorem Inv.quiet (h : Inv s) (hnow : s.now ≤ s'.now)
    (hlock : ∀ j, (s'.lock j).held = (s.lock j).held ∧ (s'.lock j).key = (s.lock j).key ∧
    (s'.lock j).lease = (s.lock j).lease)
    (hdict : ∀ j key, (s.lock j).Leased s'.now key → s'.dict key = s.dict key) : Inv s' := by
  have hleased : ∀ j key, (s'.lock j).Leased s'.now key → (s.lock j).Leased s'.now key := fun j key hj => by
    unfold Obj.Leased at hj ⊢
    rw [← (hlock j).1, ← (hlock j).2.2]
    exact hj
  have hbefore : ∀ j key, (s.lock j).Leased s'.now key → (s.lock j).Leased s.now key := fun j key hj =>
    ⟨hj.1, hj.2.imp_right hnow.trans_lt⟩
  refine ⟨fun j key hj => ?_, fun key j j' hj hj' => ?_, fun j key hj => ?_⟩
  · rw [hdict j key (hleased j key hj), (hlock j).2.2]
    exact h.entry j key (hbefore j key (hleased j key hj))
  · exact h.exclusive key j j' (hbefore j key (hleased j key hj)) (hbefore j' key (hleased j' key hj'))
  · rw [(hlock j).1] at hj
    rw [(hlock j).2.1]
    exact h.keyed j key hj

variable {self : Obj K}

/-- An object gets a lease on a key of which no other has one. -/
theorem Inv.sole (h : Inv s) (hheld : self.held = some key) (hkey : self.key = some key)
    (hothers : ∀ j, (s.lock j).Leased s.now key → j = i) :
    Inv (s.put i (self, update s.dict key (some self.lease))) := by
  refine ⟨fun j key' hj => ?_, fun key' j j' hj hj' => ?_, fun j key' hj => ?_⟩
  · by_cases hji : j = i
    · subst hji
      rw [put_self] at hj ⊢
      obtain rfl := some.inj (hheld.symm.trans hj.1)
      exact update_self ..
    · rw [put_ne hji] at hj ⊢
      have hne : key' ≠ key := fun heq => hji (hothers j (heq ▸ hj))
      exact (update_of_ne hne ..).trans (h.entry j key' hj)
  · have hfirst : ∀ l, ((s.put i (self, update s.dict key (some self.lease))).lock l).Leased s.now key' →
        l = i ∧ key' = key ∨ l ≠ i ∧ key' ≠ key ∧ (s.lock l).Leased s.now key' := fun l hl => by
      by_cases hli : l = i
      · subst hli
        rw [put_self] at hl
        exact .inl ⟨rfl, some.inj (hl.1.symm.trans hheld)⟩
      · rw [put_ne hli] at hl
        exact .inr ⟨hli, fun heq => hli (hothers l (heq ▸ hl)), hl⟩
    rcases hfirst j hj with ⟨rfl, rfl⟩ | ⟨-, hne, hleased⟩ <;> rcases hfirst j' hj' with ⟨rfl, heq⟩ |
      ⟨-, hne', hleased'⟩
    · rfl
    · exact absurd rfl hne'
    · exact absurd heq hne
    · exact h.exclusive key' j j' hleased hleased'
  · by_cases hji : j = i
    · subst hji
      rw [put_self] at hj ⊢
      rw [hkey, ← hj, hheld]
    · rw [put_ne hji] at hj ⊢
      exact h.keyed j key' hj

/-- An object lets go of a key of which no other has a lease. -/
theorem Inv.released (h : Inv s) (hheld : self.held = none)
    (hothers : ∀ j, (s.lock j).Leased s.now key → j = i) : Inv (s.put i (self, delete s.dict key)) := by
  have hleased : ∀ j key', ((s.put i (self, delete s.dict key)).lock j).Leased s.now key' →
      j ≠ i ∧ (s.lock j).Leased s.now key' := fun j key' hj => by
    by_cases hji : j = i
    · subst hji
      rw [put_self] at hj
      cases hheld.symm.trans hj.1
    · rw [put_ne hji] at hj
      exact ⟨hji, hj⟩
  refine ⟨fun j key' hj => ?_, fun key' j j' hj hj' => ?_, fun j key' hj => ?_⟩
  · obtain ⟨hji, hj⟩ := hleased j key' hj
    have hne : key' ≠ key := fun heq => hji (hothers j (heq ▸ hj))
    rw [put_ne hji]
    exact (update_of_ne hne ..).trans (h.entry j key' hj)
  · exact h.exclusive key' j j' (hleased j key' hj).2 (hleased j' key' hj').2
  · by_cases hji : j = i
    · subst hji
      rw [put_self] at hj
      cases hheld.symm.trans hj
    · rw [put_ne hji] at hj ⊢
      exact h.keyed j key' hj

/-! ## The steps -/

variable {memory : Bool}

omit [DecidableEq ι] in
/-- A key that is added had no lease. -/
theorem Inv.add (h : Inv s) {exptime : Rat} {dict : Dict K}
    (hadd : add s.dict s.now memory key exptime = (.ok (), dict)) :
    dict = update s.dict key (some (expiresAt s.now exptime)) ∧ ∀ j, ¬ (s.lock j).Leased s.now key := by
  unfold Lock.add at hadd
  cases hlookup : Lock.lookup s.dict s.now key with
  | some _ =>
    rw [hlookup] at hadd
    cases hadd
  | none =>
    rw [hlookup] at hadd
    split_ifs at hadd
    · cases hadd
      exact ⟨rfl, fun j hj => by cases (h.lookup hj).symm.trans hlookup⟩
    · cases hadd

theorem add_error {exptime : Rat} {err : DictError} {dict' : Dict K}
    (hadd : add dict now memory key exptime = (.error err, dict')) : dict' = dict := by
  unfold Lock.add at hadd
  split at hadd
  · cases hadd
    rfl
  · split at hadd <;> cases hadd
    rfl

theorem lock_cases (self : Obj K) (memory : Bool) :
    (∃ waiting, (lock self now dict memory key).2 = ({ self with waiting }, dict)) ∨
      ∃ dict', add dict now memory key self.exptime = (.ok (), dict') ∧
        (lock self now dict memory key).2 = (self.take now key, dict') := by
  unfold lock
  split
  · exact .inl ⟨_, rfl⟩
  · split
    · next dict' hadd => exact .inr ⟨dict', hadd, rfl⟩
    · next dict' hadd =>
      rw [add_error hadd]
      split <;> exact .inl ⟨_, rfl⟩
    · next dict' hadd =>
      rw [add_error hadd]
      exact .inl ⟨_, rfl⟩

theorem wake_cases (self : Obj K) (memory : Bool) (w : Wait K) :
    (∃ waiting, (wake self now dict memory w).2 = ({ self with waiting }, dict)) ∨
      ∃ dict', add dict now memory w.key self.exptime = (.ok (), dict') ∧
        (wake self now dict memory w).2 = (self.take now w.key, dict') := by
  unfold wake
  dsimp only
  split
  · next dict' hadd => exact .inr ⟨dict', hadd, rfl⟩
  · next dict' hadd =>
    rw [add_error hadd]
    split <;> exact .inl ⟨_, rfl⟩
  · next dict' hadd =>
    rw [add_error hadd]
    exact .inl ⟨_, rfl⟩

theorem unlock_held (hheld : self.held = some key) :
    (unlock self dict).2 = ({ self with held := none }, delete dict key) := by
  unfold unlock
  rw [hheld]

theorem gc_held (hheld : self.held = some key) :
    gc_lock self dict = ({ self with held := none }, delete dict key) := by
  unfold gc_lock
  rw [hheld]

theorem expire_held (time : Option Rat) (hheld : self.held = some key) (hkey : self.key = some key) :
    (expire self now dict time).2 =
      if (lookup dict now key).isSome then
        ({ self with lease := expiresAt now (time.getD self.exptime) },
          update dict key (some (expiresAt now (time.getD self.exptime))))
      else (self, dict) := by
  unfold expire replace
  rw [hheld, hkey]
  dsimp only
  cases lookup dict now key <;> rfl

theorem unlock_none (hheld : self.held = none) : (unlock self dict).2 = (self, dict) := by
  unfold unlock
  rw [hheld]

theorem gc_none (hheld : self.held = none) : gc_lock self dict = (self, dict) := by
  unfold gc_lock
  rw [hheld]

theorem expire_none (time : Option Rat) (hheld : self.held = none) :
    (expire self now dict time).2 = (self, dict) := by
  unfold expire
  rw [hheld]

omit [DecidableEq K] in
theorem Inv.put_waiting (h : Inv s) (waiting : Option (Wait K)) :
    Inv (s.put i ({ s.lock i with waiting }, s.dict)) := by
  refine h.quiet (Nat.le_refl _) (fun j => ?_) fun _ _ _ => rfl
  by_cases hji : j = i
  · subst hji
    rw [put_self]
    exact ⟨rfl, rfl, rfl⟩
  · rw [put_ne hji]
    exact ⟨rfl, rfl, rfl⟩

theorem Inv.put_take (h : Inv s) {dict : Dict K}
    (hadd : Lock.add s.dict s.now memory key (s.lock i).exptime = (.ok (), dict)) :
    Inv (s.put i ((s.lock i).take s.now key, dict)) := by
  obtain ⟨rfl, hnone⟩ := h.add hadd
  have hothers : ∀ j, (s.lock j).Leased s.now key → j = i := fun j hj => absurd hj (hnone j)
  exact Inv.sole h (Eq.refl ((s.lock i).take s.now key).held) rfl hothers

omit [DecidableEq K] in
theorem put_same : s.put i (s.lock i, s.dict) = s := by
  unfold Workers.put
  rw [update_eq_self]

omit [DecidableEq K] [DecidableEq ι] in
/-- A careful object is the only one that may have a lease on its key. -/
theorem Inv.others (h : Inv s) (hok : (s.lock i).Leased s.now key ∨ ∀ j, ¬ (s.lock j).Leased s.now key) (j : ι)
    (hj : (s.lock j).Leased s.now key) : j = i :=
  hok.elim (h.exclusive key j i hj) fun hnone => absurd hj (hnone j)

/-- What a release does: nothing without a lock; else the entry of the key is
deleted, or is set with a lease, or is not found. -/
inductive Release (s : Workers ι K) (i : ι) : Obj K × Dict K → Prop
  | none (hheld : (s.lock i).held = none) : Release s i (s.lock i, s.dict)
  | delete (key : K) (hheld : (s.lock i).held = some key) :
    Release s i ({ s.lock i with held := .none }, Lock.delete s.dict key)
  | set (key : K) (lease : Nat) (hheld : (s.lock i).held = some key) (hlease : lease = 0 ∨ s.now < lease) :
    Release s i ({ s.lock i with lease }, update s.dict key (some lease))
  | notFound (key : K) (hheld : (s.lock i).held = some key) (hlookup : lookup s.dict s.now key = .none) :
    Release s i (s.lock i, s.dict)

theorem release_cases (h : Inv s) (hi : e.releaser = some i) (hs : step s e = some s') :
    ∃ out, s' = s.put i out ∧ Release s i out := by
  cases e with
  | unlock i' =>
    cases hi
    simp only [Lock.step] at hs
    split_ifs at hs
    cases hs
    refine ⟨_, rfl, ?_⟩
    cases hheld : (s.lock i).held with
    | none =>
      rw [unlock_none hheld]
      exact .none hheld
    | some key =>
      rw [unlock_held hheld]
      exact .delete key hheld
  | expire i' time =>
    cases hi
    simp only [Lock.step] at hs
    split_ifs at hs
    cases hs
    refine ⟨_, rfl, ?_⟩
    cases hheld : (s.lock i).held with
    | none =>
      rw [expire_none time hheld]
      exact .none hheld
    | some key =>
      rw [expire_held time hheld (h.keyed i key hheld)]
      split
      · exact .set key _ hheld (leased_expiresAt ..)
      · next hlookup => exact .notFound key hheld (not_isSome_iff_eq_none.mp hlookup)
  | gc i' =>
    cases hi
    simp only [Lock.step] at hs
    split_ifs at hs
    cases hs
    refine ⟨_, rfl, ?_⟩
    cases hheld : (s.lock i).held with
    | none =>
      rw [gc_none hheld]
      exact .none hheld
    | some key =>
      rw [gc_held hheld]
      exact .delete key hheld
  | lock _ _ _ | wake _ _ | elapse _ | purge _ => cases hi

theorem Inv.release (h : Inv s) (hout : Release s i out)
    (hok : ∀ key ∈ (s.lock i).held, (s.lock i).Leased s.now key ∨ ∀ j, ¬ (s.lock j).Leased s.now key) :
    Inv (s.put i out) := by
  cases hout with
  | none hheld => rwa [put_same]
  | delete key hheld => exact h.released rfl (h.others (hok key hheld))
  | set key lease hheld hlease => exact h.sole hheld (h.keyed i key hheld) (h.others (hok key hheld))
  | notFound key hheld hlookup => rwa [put_same]

/-- The step lemma. -/
theorem Inv.step (h : Inv s) (hok : Careful s e) (hs : step s e = some s') : Inv s' := by
  cases e with
  | lock i key memory =>
    simp only [Lock.step] at hs
    split_ifs at hs
    cases hs
    rcases lock_cases (s.lock i) memory with ⟨waiting, hout⟩ | ⟨dict, hadd, hout⟩
    · rw [hout]
      exact h.put_waiting waiting
    · rw [hout]
      exact h.put_take hadd
  | wake i memory =>
    obtain ⟨w, -, hout⟩ := map_eq_some_iff.mp hs
    rw [← hout]
    rcases wake_cases (s.lock i) memory w with ⟨waiting, hout⟩ | ⟨dict, hadd, hout⟩
    · rw [hout]
      exact h.put_waiting waiting
    · rw [hout]
      exact h.put_take hadd
  | unlock i | expire i _ | gc i =>
    obtain ⟨out, rfl, hout⟩ := release_cases h rfl hs
    exact h.release hout (hok i rfl)
  | elapse ms =>
    cases hs
    exact h.quiet (Nat.le_add_right ..) (fun _ => ⟨rfl, rfl, rfl⟩) fun _ _ _ => rfl
  | purge key =>
    cases hs
    refine h.quiet (Nat.le_refl _) (fun _ => ⟨rfl, rfl, rfl⟩) fun j key' hj => ?_
    by_cases hkey : key' = key
    · subst hkey
      dsimp only
      rw [update_self, h.entry j key' hj, filter_some, if_pos (decide_eq_true hj.2)]
    · exact update_of_ne hkey ..

theorem right_of_careful (h : Inv s) (hok : Careful s e) : Right s e := by
  intro s' hs
  refine ⟨(h.step hok hs).exclusive, fun i hi hnone j key hj => ?_⟩
  have hne : ∀ held, (s.lock i).held = some held → key ≠ held := fun held hheld heq =>
    (hok i hi held hheld).resolve_left (hnone held) j (heq ▸ hj)
  obtain ⟨out, rfl, hout⟩ := release_cases h hi hs
  cases hout with
  | none hheld => rfl
  | delete held hheld => exact update_of_ne (hne held hheld) ..
  | set held lease hheld hlease => exact update_of_ne (hne held hheld) ..
  | notFound held hheld hlookup => rfl

/-- A release that is not careful deletes the entry of another object, or makes
a second lease. -/
theorem careful_of_right (h : Inv s) (hs : step s e = some s') (hright : Right s e) : Careful s e := by
  intro i hi key hheld
  by_contra hnot
  push Not at hnot
  obtain ⟨hexpired, j, hj⟩ := hnot
  have hnone : ∀ key', ¬ (s.lock i).Leased s.now key' := fun key' hleased =>
    hexpired (some.inj (hheld.symm.trans hleased.1) ▸ hleased)
  obtain ⟨hexclusive, hspared⟩ := hright s' hs
  have hji : j ≠ i := fun heq => hexpired (heq ▸ hj)
  have hsame := hspared i hi hnone j key hj
  obtain ⟨out, rfl, hout⟩ := release_cases h hi hs
  cases hout with
  | none hnone => cases hnone.symm.trans hheld
  | delete held hheld' =>
    obtain rfl := some.inj (hheld.symm.trans hheld')
    cases (update_self ..).symm.trans (hsame.trans (h.entry j key hj))
  | set held lease hheld' hlease =>
    obtain rfl := some.inj (hheld.symm.trans hheld')
    refine hji (hexclusive key j i ?_ ?_)
    · rw [put_ne hji]
      exact hj
    · rw [put_self]
      exact ⟨hheld, hlease⟩
  | notFound held hheld' hlookup =>
    obtain rfl := some.inj (hheld.symm.trans hheld')
    cases hlookup.symm.trans (h.lookup hj)

/-- **In every run, locks are exclusive and no release touches the lease of
another object exactly as long as no object releases or prolongs a lock after
its lease, when another object has one.** -/
theorem exclusive_iff_careful (now : Nat) (opts : ι → Opts) (es : List (Event ι K)) :
    Along step Careful (start now opts) es ↔ Along step Right (start now opts) es :=
  along_iff_along (I := Inv)
    (fun _ _ _ h hs => ⟨right_of_careful h, careful_of_right h hs⟩) (fun _ _ _ h hs hok => h.step hok hs)
      (inv_start now opts)

/-- A lock of one second is unlocked after it, when another object has locked. -/
theorem not_right_lateUnlock :
    ¬ ∀ (now : Nat) (opts : Nat → Opts) (es : List (Event Nat Nat)), Along step Right (start now opts) es := by
  intro h
  have hrun := h 0 (fun _ => { timeout := none, exptime := some 1, step := none, ratio := none, max_step := none })
    [.lock 0 7 true, .elapse 1001, .lock 1 7 true, .unlock 0]
  have hlast := (((((hrun _ rfl).2 _ rfl).2 _ rfl).2 _ rfl).1 _ rfl).2 0 rfl
  have hentry := hlast (fun key hleased => absurd hleased.2 (by decide +kernel)) 1 7
    ⟨by decide +kernel, by decide +kernel⟩
  exact absurd hentry (by decide +kernel)

end OpenResty.Resty.Lock
