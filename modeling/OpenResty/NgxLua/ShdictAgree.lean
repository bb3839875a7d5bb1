/-
Where the C API and the FFI of the shared dictionaries do the same: they give
back the same and leave the same entries, for one call on any dictionary.
-/
import OpenResty.NgxLua.ShdictApi

namespace OpenResty.NgxLua.Shdict

open Lib Option

variable {N : Type}

/-! ## The same outcome -/

def Ret.isNil : Ret N → Bool
  | .nil => true
  | _ => false

/-- What is given back, up to nils at its end: a value that is not there is nil. -/
def trim (rets : List (Ret N)) : List (Ret N) := (rets.reverse.dropWhile Ret.isNil).reverse

/-- The entries with their values, flags and times, the last used first. -/
def Shctx.contents (d : Shctx N) : List (Bytes × Data N × Nat × Nat) :=
  d.lru_queue.map fun sd => ((d.node sd).key, (d.node sd).data, (d.node sd).user_flags, (d.node sd).expires)

def Outcome.Same (a b : Outcome N) : Prop := a.1.map trim = b.1.map trim ∧ a.2.contents = b.2.contents

/-! ## Where a value is written -/

/-- Where a store comes to: it stops with a result, or writes an item into a new
node, or over that of `sd`. -/
inductive Site (N : Type)
  | stop (r : Stored) (d : Shctx N)
  | insert (forcible : Bool) (d : Shctx N)
  | reuse (sd : Nat) (d : Shctx N)

section site

variable (z : Zone) (now : Nat) (slab : Slab) (op : StoreOp)

def Shctx.insertSite (value : Option (Value N)) (d : Shctx N) : Site N :=
  match value with
  | none => .stop (.ok false) d
  | some _ =>
    match d.allocate z now slab op.safe_store with
    | (none, forcible, d) => .stop (.noMemory forcible) d
    | (some _, forcible, d) => .insert forcible d

def Shctx.replaceSite (value : Option (Value N)) (sd : Nat) (d : Shctx N) : Site N :=
  match value with
  | none => (d.remove z sd).insertSite z now slab op none
  | some v =>
    if v.len = (d.node sd).value_len ∧ (d.node sd).data.isList = false then .reuse sd d
    else (d.remove z sd).insertSite z now slab op (some v)

def Shctx.storeSite (key : Bytes) (value : Option (Value N)) (d : Shctx N) : Site N :=
  let d := (d.expire z now 1).2
  let (rc, d) := d.lookup z now key
  if op.replace then
    match rc with
    | .ok sd => d.replaceSite z now slab op value sd
    | _ => .stop .notFound d
  else if op.add then
    match rc with
    | .ok _ => .stop .exists d
    | .done sd => d.replaceSite z now slab op value sd
    | .declined => d.insertSite z now slab op value
  else
    match rc with
    | .ok sd | .done sd => d.replaceSite z now slab op value sd
    | .declined => d.insertSite z now slab op value

/-- The node of an item in its place, with what is kept of the node `sd`. -/
def Item.over (sd : Node N) (item : Item N) (value : Value N) : Node N :=
  { sd with
    key := item.key, value_len := value.len, data := .scalar value
    expires := expiresAt now item.ttl, user_flags := item.user_flags }

/-- The item goes where the store came to. -/
def Site.write (item : Item N) (value : Value N) : Site N → Stored × Shctx N
  | .stop r d => (r, d)
  | .insert forcible d => (.ok forcible,
      d.addNode z (item.over now { d.node d.fresh with hash := z.crc32_short item.key } value))
  | .reuse sd d => (.ok false, (d.toFront sd).setNode sd (item.over now (d.node sd) value))

variable {z now slab op} {item : Item N} {value : Value N} {d : Shctx N}

theorem storeInsert_eq (h : item.value = some value) :
    d.storeInsert z now slab op item = (d.insertSite z now slab op item.value).write z now item value := by
  unfold Shctx.storeInsert Shctx.insertSite
  rw [h]
  dsimp only
  rcases d.allocate z now slab op.safe_store with ⟨mem, forcible, d⟩
  cases mem with
  | none => rfl
  | some mem => rfl

theorem storeReplace_eq {sd : Nat} (h : item.value = some value) :
    d.storeReplace z now slab op item sd = (d.replaceSite z now slab op item.value sd).write z now item value := by
  have hinsert := @storeInsert_eq _ z now slab op item value (d.remove z sd) h
  unfold Shctx.storeReplace Shctx.replaceSite
  rw [h] at hinsert ⊢
  dsimp only
  split
  · rfl
  · exact hinsert

/-- A store with a value is the way to its place, and then the writing. -/
theorem store_eq (h : item.value = some value) :
    d.store z now slab op item = (d.storeSite z now slab op item.key item.value).write z now item value := by
  unfold Shctx.store Shctx.storeSite
  dsimp only
  rcases ((d.expire z now 1).2.lookup z now item.key) with ⟨rc, d⟩
  cases rc with
  | declined =>
    dsimp only
    split
    · rfl
    · split
      · exact storeInsert_eq h
      · exact storeInsert_eq h
  | done sd =>
    dsimp only
    split
    · rfl
    · split
      · exact storeReplace_eq h
      · exact storeReplace_eq h
  | ok sd =>
    dsimp only
    split
    · exact storeReplace_eq h
    · split
      · rfl
      · exact storeReplace_eq h

/-- Without a value, times and flags are not looked at, and no memory is asked for. -/
theorem store_none {item' : Item N} (h : item.value = none) (h' : item'.value = none) (hkey : item'.key = item.key)
    (hadd : op.add = false) (hreplace : op.replace = false) :
    d.store z now slab op item = (.ok false, (d.store z now slab op item).2) ∧
      d.store z now slab op item' = d.store z now slab op item := by
  unfold Shctx.store Shctx.storeReplace Shctx.storeInsert
  rw [h, h', hkey, hadd, hreplace]
  dsimp only
  rcases ((d.expire z now 1).2.lookup z now item.key) with ⟨rc, d⟩
  cases rc with
  | declined => exact ⟨rfl, rfl⟩
  | done sd => exact ⟨rfl, rfl⟩
  | ok sd => exact ⟨rfl, rfl⟩

/-- Two items of one key and value that are written: what is left says their
times and flags. -/
theorem contents_write {site : Site N} {item' : Item N}
    (hsite : ∀ r d, site ≠ .stop r d)
    (h : (site.write z now item value).2.contents = (site.write z now item' value).2.contents) :
    expiresAt now item.ttl = expiresAt now item'.ttl ∧ item.user_flags = item'.user_flags := by
  cases site with
  | stop r d => exact absurd rfl (hsite r d)
  | insert forcible d =>
    have hnode : ∀ i : Item N, ((Site.insert forcible d).write z now i value).2.node d.fresh = i.over now _ value :=
      fun _ => Function.update_self ..
    have hhead := (List.cons.inj h).1
    dsimp only at hhead
    rw [hnode, hnode] at hhead
    simp only [Item.over, Prod.mk.injEq] at hhead
    exact ⟨hhead.2.2.2, hhead.2.2.1⟩
  | reuse sd d =>
    have hnode : ∀ i : Item N, ((Site.reuse sd d).write z now i value).2.node sd = i.over now (d.node sd) value :=
      fun _ => Function.update_self ..
    have hhead := (List.cons.inj h).1
    dsimp only at hhead
    rw [hnode, hnode] at hhead
    simp only [Item.over, Prod.mk.injEq] at hhead
    exact ⟨hhead.2.2.2, hhead.2.2.1⟩

end site

/-! ## Where the two agree -/

section agree

variable (lua : Lua N) (z : Zone) (now : Nat) (slab : Slab)

/-- Beyond this, a conversion in C is undefined or a time is not a `uint64_t`. -/
structure Opts.Fits (opts : Opts) : Prop where
  nonneg : 0 ≤ opts.exptime
  time : (now : Int) + trunc (lua.thousandfold opts.exptime) < 2 ^ 64

/-- Arguments that both take, with nothing undefined. -/
def Call.Accepted : Call N → Prop
  | .set _ _ opts | .safeSet _ _ opts | .add _ _ opts | .safeAdd _ _ opts | .replace _ _ opts => opts.Fits lua now
  | .incr _ value init => (value.number? lua).isSome ∧ ∀ i ∈ init, (i.number? lua).isSome
  | .delete _ | .get _ | .getStale _ => True

/-- The time is none, or a number of milliseconds that is an `int` and not below one. -/
def Opts.SameTime (opts : Opts) : Prop :=
  opts.exptime = 0 ∨ 1 ≤ lua.thousandfold opts.exptime ∧ lua.thousandfold opts.exptime < 2 ^ 31

/-- What the FFI passes for the flags has their low 32 bits. -/
def Opts.SameFlags (opts : Opts) : Prop := lua.toInt opts.flags % 2 ^ 32 = trunc opts.flags % 2 ^ 32

/-- No nil is added or put in place of a value; no memory is refused to a safe
store; what is written has such times and flags. -/
def AlikeStore (flags : Nat) (key : KeyArg) (value : ValueArg N) (opts : Opts) (d : Shctx N) : Prop :=
  ∀ k, checkKey lua key = .ok k →
    match value with
    | .other => True
    | .nil => (StoreOp.ofBits flags).add = false ∧ (StoreOp.ofBits flags).replace = false
    | .value v =>
      match d.storeSite z now slab (.ofBits flags) k (some v) with
      | .stop (.noMemory _) _ => (StoreOp.ofBits flags).safe_store = false
      | .stop _ _ => True
      | _ => opts.SameTime lua ∧ opts.SameFlags lua

/-- The flags of a value are an `int`. -/
def Node.FlagsFit (sd : Node N) : Prop :=
  match sd.fetch false with
  | .value _ user_flags _ => user_flags < 2 ^ 31
  | _ => True

/-- What is read has flags that are an `int`. -/
def AlikeGet (get_stale : Bool) (key : KeyArg) (d : Shctx N) : Prop :=
  ∀ k, checkKey lua key = .ok k →
    match (if get_stale then d else (d.expire z now 1).2).lookup z now k with
    | (.declined, _) => True
    | (.ok sd, d) => (d.node sd).FlagsFit
    | (.done sd, d) => get_stale = true → (d.node sd).FlagsFit

/-- An initial value is given only where there is no number yet, and memory for
its entry. -/
def AlikeIncr (key : KeyArg) (init : Option (NumArg N)) (d : Shctx N) : Prop :=
  ∀ k, checkKey lua key = .ok k → init.isSome = true →
    match (d.expire z now 1).2.lookup z now k with
    | (.declined, d) => (d.allocate z now slab false).1.isSome = true
    | (.done sd, d) =>
      (d.node sd).value_len = 8 ∧ (d.node sd).data.isList = false ∨
        ((d.remove z sd).allocate z now slab false).1.isSome = true
    | (.ok sd, d) => ∀ num, (d.node sd).data = .scalar (.number num) → (d.node sd).value_len ≠ 8

/-- Calls for which the FFI does as the C API does. -/
def Call.Alike (d : Shctx N) : Call N → Prop
  | .set key value opts => AlikeStore lua z now slab 0 key value opts d
  | .safeSet key value opts => AlikeStore lua z now slab 0x0004 key value opts d
  | .add key value opts => AlikeStore lua z now slab 0x0001 key value opts d
  | .safeAdd key value opts => AlikeStore lua z now slab 0x0005 key value opts d
  | .replace key value opts => AlikeStore lua z now slab 0x0002 key value opts d
  | .delete _ => True
  | .get key => AlikeGet lua z now false key d
  | .getStale key => AlikeGet lua z now true key d
  | .incr key _ init => AlikeIncr lua z now slab key init d

variable {lua z now slab}

theorem trunc_of_nonneg {q : Rat} (h : 0 ≤ q) : trunc q = ⌊q⌋ := if_pos h

/-- When the two write the same time. -/
theorem expires_iff {opts : Opts} (hnow : 0 < now) (h : opts.Fits lua now) :
    expiresAt now (if 0 < opts.exptime then some (trunc (lua.thousandfold opts.exptime)).toNat else none) =
      expiresAt now (if 0 < lua.toInt (lua.thousandfold opts.exptime) then
        some (lua.toInt (lua.thousandfold opts.exptime)).toNat else none) ↔ opts.SameTime lua := by
  obtain ⟨hnonneg, htime⟩ := h
  unfold Opts.SameTime
  have hms := lua.thousandfold_nonneg _ hnonneg
  rcases eq_or_lt_of_le hnonneg with hzero | hpos
  · have hint : lua.toInt 0 = 0 := lua.toInt_trunc 0 (by decide) (by decide)
    rw [← hzero, lua.thousandfold_zero, hint, if_neg (lt_irrefl _), if_neg (lt_irrefl _)]
    exact iff_of_true rfl (.inl rfl)
  · generalize lua.thousandfold opts.exptime = ms at hms htime ⊢
    have hlow : 1 ≤ ms ↔ 1 ≤ ⌊ms⌋ := by
      rw [Int.le_floor]
      norm_cast
    have hhigh : ms < 2 ^ 31 ↔ ⌊ms⌋ < 2 ^ 31 := by
      rw [Int.floor_lt]
      norm_cast
    have hfloor : 0 ≤ ⌊ms⌋ := Int.floor_nonneg.mpr hms
    have hlt := lua.toInt_lt ms
    have htrunc := lua.toInt_trunc ms
    rw [trunc_of_nonneg hms] at htime htrunc
    rw [trunc_of_nonneg hms, if_pos hpos, hlow, hhigh]
    generalize ⌊ms⌋ = t at *
    generalize lua.toInt ms = i at *
    have hne : opts.exptime ≠ 0 := ne_of_gt hpos
    simp only [expiresAt, elim_some, hne, false_or]
    rw [Nat.mod_eq_of_lt (by omega)]
    split
    · rw [elim_some, Nat.mod_eq_of_lt (by omega)]
      omega
    · rw [elim_none]
      omega

theorem flags_iff {opts : Opts} :
    (trunc opts.flags % 2 ^ 32).toNat = (lua.toInt opts.flags % 2 ^ 32).toNat ↔ opts.SameFlags lua := by
  unfold Opts.SameFlags
  omega

/-- A key that passes the checks. -/
theorem forall_ok {P : Bytes → Prop} {k : Bytes} :
    (∀ k', (Except.ok k : Except String Bytes) = .ok k' → P k') ↔ P k :=
  ⟨fun h => h k rfl, fun h k' hk => by cases hk; exact h⟩

/-- The results are the same but for memory refused to a safe store. -/
theorem storeRets_iff {op : StoreOp} {r : Stored} :
    trim (Capi.storeRets op r : List (Ret N)) = trim (Ffi.storeRets (Ffi.storeRc r)) ↔
      ∀ forcible, r = .noMemory forcible → op.safe_store = false := by
  cases r with
  | ok forcible => exact iff_of_true rfl fun f hf => by cases hf
  | «exists» => exact iff_of_true rfl fun f hf => by cases hf
  | notFound => exact iff_of_true rfl fun f hf => by cases hf
  | noMemory forcible =>
    unfold Capi.storeRets
    cases hsafe : op.safe_store with
    | true => exact iff_of_false (fun h => by cases h) fun h => Bool.noConfusion (h forcible rfl)
    | false => exact iff_of_true rfl fun _ _ => rfl

/-- A value is written by both, or not, at the same place. -/
theorem site_same {op : StoreOp} {item item' : Item N} {v : Value N} {site : Site N} {time flag : Prop}
    (htime : expiresAt now item.ttl = expiresAt now item'.ttl ↔ time)
    (hflag : item.user_flags = item'.user_flags ↔ flag)
    (hkey : item'.key = item.key) :
    Outcome.Same (some (Capi.storeRets op (site.write z now item v).1), (site.write z now item v).2)
        (some (Ffi.storeRets (Ffi.storeRc (site.write z now item' v).1)), (site.write z now item' v).2) ↔
      match site with
      | .stop (.noMemory _) _ => op.safe_store = false
      | .stop _ _ => True
      | _ => time ∧ flag := by
  have hover : ∀ sd, time ∧ flag → item.over now sd v = item'.over now sd v := by
    intro sd ⟨ht, hf⟩
    rw [Item.over, Item.over, hkey, htime.mpr ht, hflag.mpr hf]
  have hwritten : (∀ r d, site ≠ .stop r d) →
      (site.write z now item v).2.contents = (site.write z now item' v).2.contents → time ∧ flag := by
    intro hsite h
    obtain ⟨ht, hf⟩ := contents_write hsite h
    exact ⟨htime.mp ht, hflag.mp hf⟩
  cases site with
  | stop r d =>
    have hrets := @storeRets_iff N op r
    cases r with
    | ok forcible => exact iff_of_true ⟨rfl, rfl⟩ trivial
    | «exists» => exact iff_of_true ⟨rfl, rfl⟩ trivial
    | notFound => exact iff_of_true ⟨rfl, rfl⟩ trivial
    | noMemory forcible =>
      refine ⟨fun h => hrets.mp (some_inj.mp h.1) forcible rfl, fun h => ⟨?_, rfl⟩⟩
      exact congrArg some (hrets.mpr fun _ _ => h)
  | insert forcible d =>
    refine ⟨fun h => hwritten (fun r d h => by cases h) h.2, fun h => ⟨rfl, ?_⟩⟩
    rw [Site.write, Site.write, hover _ h, hkey]
  | reuse sd d =>
    refine ⟨fun h => hwritten (fun r d h => by cases h) h.2, fun h => ⟨rfl, ?_⟩⟩
    rw [Site.write, Site.write, hover _ h]

/-- A key is removed by both. -/
theorem same_of_none {op : StoreOp} {item item' : Item N} {d : Shctx N} (h : item.value = none)
    (h' : item'.value = none) (hkey : item'.key = item.key) (hadd : op.add = false) (hreplace : op.replace = false) :
    Outcome.Same (some (Capi.storeRets op (d.store z now slab op item).1), (d.store z now slab op item).2)
      (some (Ffi.storeRets (Ffi.storeRc (d.store z now slab op item').1)), (d.store z now slab op item').2) := by
  obtain ⟨hok, hsame⟩ := @store_none _ z now slab op item d item' h h' hkey hadd hreplace
  rw [hsame, hok]
  exact ⟨rfl, rfl⟩

variable {key : KeyArg}

theorem store_same {flags : Nat} {value : ValueArg N} {opts : Opts} (hnow : 0 < now)
    (hfits : opts.Fits lua now) (d : Shctx N) :
    (Capi.setHelper lua z now slab flags key value opts d).Same
      (Ffi.shdictStore lua z now slab flags key value opts d) ↔
      AlikeStore lua z now slab flags key value opts d := by
  have hexptime : ¬ opts.exptime < 0 := not_lt.mpr hfits.nonneg
  unfold Capi.setHelper Ffi.shdictStore AlikeStore
  cases hkey : checkKey lua key with
  | error msg =>
    rw [if_neg hexptime]
    exact iff_of_true ⟨rfl, rfl⟩ fun k hk => by cases hk
  | ok k =>
    rw [if_neg hexptime, forall_ok]
    dsimp only
    cases value with
    | other => exact iff_of_true ⟨rfl, rfl⟩ trivial
    | nil =>
      unfold Ffi.ffiShdictStore
      dsimp only
      by_cases hop : (StoreOp.ofBits flags).add = true ∨ (StoreOp.ofBits flags).replace = true
      · rw [if_pos hop, if_pos ⟨rfl, hop⟩]
        refine iff_of_false (fun h => ?_) fun h => ?_
        · cases h.1
        · rw [h.1, h.2] at hop
          exact hop.elim Bool.noConfusion Bool.noConfusion
      · have hvalue : ¬ ((none : Option (Value N)).isNone = true ∧
            ((StoreOp.ofBits flags).add = true ∨ (StoreOp.ofBits flags).replace = true)) := fun h => hop h.2
        rw [if_neg hop, if_neg hexptime, if_neg hvalue]
        have hadd : (StoreOp.ofBits flags).add = false := Bool.eq_false_iff.mpr fun h => hop (.inl h)
        have hreplace : (StoreOp.ofBits flags).replace = false := Bool.eq_false_iff.mpr fun h => hop (.inr h)
        exact iff_of_true (same_of_none rfl rfl rfl hadd hreplace) ⟨hadd, hreplace⟩
    | value v =>
      unfold Ffi.ffiShdictStore
      dsimp only
      have hvalue : ¬ ((some v).isNone = true ∧
          ((StoreOp.ofBits flags).add = true ∨ (StoreOp.ofBits flags).replace = true)) := fun h =>
            Bool.noConfusion h.1
      rw [if_neg hexptime, if_neg hvalue, store_eq rfl, store_eq rfl]
      refine site_same ?_ ?_ rfl
      · exact expires_iff hnow hfits
      · exact flags_iff

theorem int_eq_iff {n : Nat} : Ffi.int n = n ↔ n < 2 ^ 31 := by
  unfold Ffi.int
  split
  · next h => exact iff_of_true rfl h
  · next h => exact iff_of_false (by omega) h

/-- The code's lookup gives what the read fetches. -/
theorem get_eq (get_stale : Bool) (key : Bytes) (d : Shctx N) :
    d.get z now key get_stale =
      match (if get_stale then d else (d.expire z now 1).2).lookup z now key with
      | (.declined, d) => (.missing, d)
      | (.ok sd, d) => ((d.node sd).fetch false, d)
      | (.done sd, d) => if get_stale then ((d.node sd).fetch true, d) else (.missing, d) := by
  unfold Shctx.get
  dsimp only
  rcases (if get_stale then d else (d.expire z now 1).2).lookup z now key with ⟨rc, d⟩
  cases rc with
  | declined => rfl
  | ok sd => rfl
  | done sd => rfl

theorem trim_ret (v : Value N) : trim [v.ret] = [v.ret] := by
  cases v with
  | boolean b => rfl
  | number n => rfl
  | string s => rfl

/-- A value is read by both with the same flags when they are an `int`. -/
theorem value_same {v : Value N} {user_flags : Nat} {d : Shctx N} :
    Outcome.Same (some (if user_flags ≠ 0 then [v.ret, .integer user_flags] else [v.ret]), d)
        (some (if Ffi.int user_flags ≠ 0 then [v.ret, .integer (Ffi.int user_flags)] else [v.ret]), d) ↔
      user_flags < 2 ^ 31 := by
  by_cases hzero : user_flags = 0
  · subst hzero
    exact iff_of_true ⟨rfl, rfl⟩ (by decide)
  · rw [if_pos hzero]
    constructor
    · intro h
      have hrets := some_inj.mp h.1
      split at hrets
      · have hint : (user_flags : Int) = Ffi.int user_flags :=
          Ret.integer.inj (List.cons.inj (List.cons.inj hrets).2).1
        exact int_eq_iff.mp hint.symm
      · rw [trim_ret] at hrets
        cases (List.cons.inj hrets).2
    · intro h
      rw [int_eq_iff.mpr h, if_pos (by omega)]
      exact ⟨rfl, rfl⟩

/-- The same when it may be stale. -/
theorem stale_value_same {v : Value N} {user_flags : Nat} {stale : Bool} {d : Shctx N} :
    Outcome.Same (some [v.ret, if user_flags ≠ 0 then .integer user_flags else .nil, .boolean stale], d)
        (some (if Ffi.int user_flags ≠ 0 then [v.ret, .integer (Ffi.int user_flags), .boolean stale]
          else [v.ret, .nil, .boolean stale]), d) ↔
      user_flags < 2 ^ 31 := by
  by_cases hzero : user_flags = 0
  · subst hzero
    exact iff_of_true ⟨rfl, rfl⟩ (by decide)
  · rw [if_pos hzero]
    constructor
    · intro h
      have hrets := some_inj.mp h.1
      split at hrets
      · have hint : (user_flags : Int) = Ffi.int user_flags :=
          Ret.integer.inj (List.cons.inj (List.cons.inj hrets).2).1
        exact int_eq_iff.mp hint.symm
      · cases (List.cons.inj (List.cons.inj hrets).2).1
    · intro h
      rw [int_eq_iff.mpr h, if_pos (by omega)]
      exact ⟨rfl, rfl⟩

/-- Stale or not, the flags are those of the node. -/
theorem flagsFit_iff {sd : Node N} (stale : Bool) :
    sd.FlagsFit ↔ match sd.fetch stale with
      | .value _ user_flags _ => user_flags < 2 ^ 31
      | _ => True := by
  unfold Node.FlagsFit Node.fetch
  cases sd.data with
  | list elems => rfl
  | scalar v =>
    cases v with
    | boolean b =>
      dsimp only
      by_cases hlen : sd.value_len ≠ 1
      · rw [if_pos hlen, if_pos hlen]
      · rw [if_neg hlen, if_neg hlen]
    | number n =>
      dsimp only
      by_cases hlen : sd.value_len ≠ 8
      · rw [if_pos hlen, if_pos hlen]
      · rw [if_neg hlen, if_neg hlen]
    | string s => rfl

theorem get_same (d : Shctx N) :
    (Capi.get lua z now key d).Same (Ffi.shdictGet lua z now key d) ↔ AlikeGet lua z now false key d := by
  unfold Capi.get Capi.getHelper Ffi.shdictGet AlikeGet Ffi.ffiShdictGet
  cases checkKey lua key with
  | error msg => exact iff_of_true ⟨rfl, rfl⟩ fun k hk => by cases hk
  | ok k =>
    rw [forall_ok]
    dsimp only
    rw [get_eq, if_neg Bool.false_ne_true]
    rcases (d.expire z now 1).2.lookup z now k with ⟨rc, d⟩
    cases rc with
    | declined => exact iff_of_true ⟨rfl, rfl⟩ trivial
    | done sd => exact iff_of_true ⟨rfl, rfl⟩ fun h => Bool.noConfusion h
    | ok sd =>
      dsimp only
      rw [Node.FlagsFit]
      cases (d.node sd).fetch false with
      | missing => exact iff_of_true ⟨rfl, rfl⟩ trivial
      | isList => exact iff_of_true ⟨rfl, rfl⟩ trivial
      | badSize => exact iff_of_true ⟨rfl, rfl⟩ trivial
      | value v user_flags stale =>
        dsimp only
        rw [if_neg Bool.false_ne_true, ← apply_ite some]
        exact value_same

theorem getStale_same (d : Shctx N) :
    (Capi.getStale lua z now key d).Same (Ffi.shdictGetStale lua z now key d) ↔ AlikeGet lua z now true key d := by
  unfold Capi.getStale Capi.getHelper Ffi.shdictGetStale AlikeGet Ffi.ffiShdictGet
  cases checkKey lua key with
  | error msg => exact iff_of_true ⟨rfl, rfl⟩ fun k hk => by cases hk
  | ok k =>
    rw [forall_ok]
    dsimp only
    rw [get_eq, if_pos rfl]
    rcases d.lookup z now k with ⟨rc, d⟩
    cases rc with
    | declined => exact iff_of_true ⟨rfl, rfl⟩ trivial
    | done sd =>
      dsimp only
      rw [if_pos rfl, forall_prop_of_true rfl, flagsFit_iff true]
      cases (d.node sd).fetch true with
      | missing => exact iff_of_true ⟨rfl, rfl⟩ trivial
      | isList => exact iff_of_true ⟨rfl, rfl⟩ trivial
      | badSize => exact iff_of_true ⟨rfl, rfl⟩ trivial
      | value v user_flags stale => exact stale_value_same
    | ok sd =>
      dsimp only
      rw [Node.FlagsFit]
      cases (d.node sd).fetch false with
      | missing => exact iff_of_true ⟨rfl, rfl⟩ trivial
      | isList => exact iff_of_true ⟨rfl, rfl⟩ trivial
      | badSize => exact iff_of_true ⟨rfl, rfl⟩ trivial
      | value v user_flags stale => exact stale_value_same

/-- A new entry is made by both when there is memory. -/
theorem incrInsert_same [Add N] {key : Bytes} {num : N} (d : Shctx N) :
    Outcome.Same (some (Capi.incrRets (d.incrInsert z now slab key num).1), (d.incrInsert z now slab key num).2)
        (some (Ffi.incrRets true (Ffi.incrRc (d.incrInsert z now slab key num).1)),
          (d.incrInsert z now slab key num).2) ↔
      (d.allocate z now slab false).1.isSome = true := by
  unfold Shctx.incrInsert
  rcases d.allocate z now slab false with ⟨mem, forcible, d⟩
  cases mem with
  | none => exact iff_of_false (fun h => by cases h.1) Bool.noConfusion
  | some mem => exact iff_of_true ⟨rfl, rfl⟩ rfl

theorem incr_same [Add N] {value : NumArg N} {init : Option (NumArg N)}
    (hvalue : (value.number? lua).isSome = true) (hinit : ∀ i ∈ init, (i.number? lua).isSome = true) (d : Shctx N) :
    (Capi.incr lua z now slab key value init d).Same (Ffi.shdictIncr lua z now slab key value init d) ↔
      AlikeIncr lua z now slab key init d := by
  unfold Capi.incr Ffi.shdictIncr AlikeIncr Ffi.ffiShdictIncr
  cases checkKey lua key with
  | error msg => exact iff_of_true ⟨rfl, rfl⟩ fun k hk => by cases hk
  | ok k =>
    obtain ⟨v, hv⟩ := isSome_iff_exists.mp hvalue
    rw [forall_ok]
    dsimp only
    rw [hv]
    cases init with
    | none =>
      refine iff_of_true ?_ fun h => Bool.noConfusion h
      unfold Shctx.incr
      dsimp only [map_none, join_none]
      rcases (d.expire z now 1).2.lookup z now k with ⟨rc, d⟩
      cases rc with
      | declined => exact ⟨rfl, rfl⟩
      | done sd => exact ⟨rfl, rfl⟩
      | ok sd =>
        dsimp only
        split
        · split
          · exact ⟨rfl, rfl⟩
          · exact ⟨rfl, rfl⟩
        · exact ⟨rfl, rfl⟩
    | some i =>
      obtain ⟨w, hw⟩ := isSome_iff_exists.mp (hinit i rfl)
      rw [map_some, hw]
      dsimp only [join_some, isSome_some]
      rw [forall_prop_of_true rfl]
      unfold Shctx.incr
      dsimp only
      rcases (d.expire z now 1).2.lookup z now k with ⟨rc, d⟩
      cases rc with
      | declined => exact incrInsert_same d
      | done sd =>
        dsimp only
        split
        · next hfits => exact iff_of_true ⟨rfl, rfl⟩ (.inl hfits)
        · next hfits =>
          refine (incrInsert_same _).trans ⟨.inr, fun h => h.resolve_left fun hin => hfits hin⟩
      | ok sd =>
        dsimp only
        cases (d.node sd).data with
        | list elems => exact iff_of_true ⟨rfl, rfl⟩ fun num h => by cases h
        | scalar u =>
          cases u with
          | boolean b => exact iff_of_true ⟨rfl, rfl⟩ fun num h => by cases h
          | string s => exact iff_of_true ⟨rfl, rfl⟩ fun num h => by cases h
          | number num =>
            dsimp only
            split
            · next hlen => exact iff_of_true ⟨rfl, rfl⟩ fun _ _ => hlen
            · next hlen => exact iff_of_false (fun h => by cases h.1) fun h => hlen (h num rfl)

theorem delete_same (d : Shctx N) :
    (Capi.delete lua z now slab key d).Same (Ffi.shdictDelete lua z now slab key d) := by
  unfold Capi.delete Ffi.shdictDelete Ffi.shdictSet Capi.setHelper Ffi.shdictStore Ffi.ffiShdictStore
  cases checkKey lua key with
  | error msg => exact ⟨rfl, rfl⟩
  | ok k => exact same_of_none rfl rfl rfl rfl rfl

/-- **For each call that both take, the FFI does as the C API does if and only
if the call is one of those alike.** -/
theorem api_agree_iff [Add N] (lua : Lua N) (z : Zone) (now : Nat) (slab : Slab) (d : Shctx N) (call : Call N)
    (hnow : 0 < now) (h : call.Accepted lua now) :
    (call.capi lua z now slab d).Same (call.ffi lua z now slab d) ↔ call.Alike lua z now slab d := by
  cases call with
  | set key value opts => exact store_same hnow h d
  | safeSet key value opts => exact store_same hnow h d
  | add key value opts => exact store_same hnow h d
  | safeAdd key value opts => exact store_same hnow h d
  | replace key value opts => exact store_same hnow h d
  | delete key => exact iff_of_true (delete_same d) trivial
  | get key => exact get_same d
  | getStale key => exact getStale_same d
  | incr key value init => exact incr_same h.1 h.2 d

end agree

/-- Lua with numbers that are not rounded. -/
def exactLua : Lua Int where
  tostring := fun _ => []
  tonumber := fun _ => none
  thousandfold := fun q => q * 1000
  toInt := fun q => if -2 ^ 31 ≤ trunc q ∧ trunc q < 2 ^ 31 then trunc q else -2 ^ 31
  thousandfold_zero := zero_mul 1000
  thousandfold_nonneg := fun q h => Rat.mul_nonneg h (by decide)
  toInt_lt := fun q => by
    split
    · next h => exact h.2
    · decide
  toInt_trunc := fun q hlow hhigh => if_pos ⟨hlow, hhigh⟩

def memory : Slab := fun _ => some fun _ => 0

/-- A number set for half a second with flags, in a new dictionary. -/
theorem api_agree_set :
    (Call.capi exactLua plainZone 1000 memory (.init fun _ => blankNode)
        (.set (.string [97]) (.value (.number 1)) (some (1 / 2, some 7)))).Same
      (Call.ffi exactLua plainZone 1000 memory (.init fun _ => blankNode)
        (.set (.string [97]) (.value (.number 1)) (some (1 / 2, some 7)))) := by
  have hfits : Opts.Fits exactLua 1000 (some (1 / 2, some 7)) := ⟨by decide +kernel, by decide +kernel⟩
  refine (api_agree_iff exactLua plainZone 1000 memory _ (.set _ _ _) (by decide) hfits).mpr ?_
  intro k hk
  cases hk
  refine ⟨.inr ?_, ?_⟩
  · show 1 ≤ (1 / 2 : Rat) * 1000 ∧ (1 / 2 : Rat) * 1000 < 2 ^ 31
    decide +kernel
  · show exactLua.toInt 7 % 2 ^ 32 = trunc 7 % 2 ^ 32
    decide +kernel

/-- A number set for thirty days: the FFI passes no such time in an `int`. -/
theorem thirty_days_differ :
    ¬ (Call.capi exactLua plainZone 1000 memory (.init fun _ => blankNode)
        (.set (.string [97]) (.value (.number 1)) (some (2592000, none)))).Same
      (Call.ffi exactLua plainZone 1000 memory (.init fun _ => blankNode)
        (.set (.string [97]) (.value (.number 1)) (some (2592000, none)))) := by
  intro h
  have hexpires := congrArg (fun c => c.map fun (_, _, _, expires) => expires) h.2
  revert hexpires
  decide +kernel

end OpenResty.NgxLua.Shdict
