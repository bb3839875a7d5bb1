/-
What each operation of a shared dictionary does to the entry of its key, after
the scan that it starts with: the cases of its result. The entries of other
keys stay as they are, but for those at the end that go when memory is short.
-/
import OpenResty.NgxLua.ShdictRep

namespace OpenResty.NgxLua.Shdict

open Lib List

variable {N : Type} {z : Zone} {d d' : Shctx N} {sd : Nat} {key : Bytes} {now : Nat} {n n' : Node N}
  {rest : List (Node N)} {short : Prop} {o : Option (Node N)}

abbrev Shctx.entry (d : Shctx N) (key : Bytes) : Option (Node N) := Lib.entry Node.key key d.queue

/-- The dictionary after the scan. -/
abbrev Shctx.scanned (z : Zone) (now : Nat) (d : Shctx N) : Shctx N := (d.expire z now 1).2

def Live (now : Nat) (o : Option (Node N)) : Prop := ∃ n ∈ o, ¬ n.expired now

theorem not_live_none (h : o = none) : ¬ Live now o := fun ⟨n, hn, _⟩ => by rw [h] at hn; cases hn

theorem live_iff (h : o = some n) : Live now o ↔ ¬ n.expired now := by
  simp [Live, h]

/-- From `d` to `d'` the entry of `key` comes to be `o`; of the others, some go
at the end of the queue when memory is `short`. -/
structure After (z : Zone) (short : Prop) (key : Bytes) (d d' : Shctx N) (o : Option (Node N)) : Prop where
  rep : Rep z d'
  others : Dropped (fun _ => short) (others Node.key key d.queue) (others Node.key key d'.queue)
  entry : d'.entry key = o

theorem After.self (h : Rep z d) : After z short key d d (d.entry key) := ⟨h, .refl, rfl⟩

/-- What holds of the entry of the key and of the others holds of all. -/
theorem After.forall {P : Node N → Prop} (h : After z short key d d' o) (hself : ∀ n, o = some n → P n)
    (hothers : ∀ n ∈ d.queue, P n) : ∀ n ∈ d'.queue, P n := by
  intro n hn
  by_cases hkey : n.key = key
  · have hentry := h.rep.entry_of_mem hn
    rw [hkey] at hentry
    exact hself n (h.entry.symm.trans hentry)
  · exact hothers n (mem_others.mp (h.others.mem (mem_others.mpr ⟨hn, hkey⟩))).1

/-- Another key keeps its entry, unless memory is short. -/
theorem After.other {key' : Bytes} (h : After z short key d d' o) (hne : key' ≠ key) :
    d'.entry key' = d.entry key' ∨ d'.entry key' = none ∧ short := by
  have hentry := h.others.entry Node.key key'
  rw [entry_others_of_ne hne, entry_others_of_ne hne] at hentry
  exact hentry.imp_right fun ⟨hnone, _, _, hshort⟩ => ⟨hnone, hshort⟩

/-- The entry is in front. -/
theorem Front.after (h : Front z d' sd n rest) (hkey : n.key = key)
    (hrest : Dropped (fun _ => short) (others Node.key key d.queue) rest) : After z short key d d' (some n) := by
  have hnone : Lib.entry Node.key key rest = none := hrest.entry_none entry_others_self
  refine ⟨h.rep, ?_, ?_⟩
  · rw [h.queue, others_cons_self hkey, others_of_none hnone]
    exact hrest
  · rw [Shctx.entry, h.queue, entry_cons_self hkey]

/-- The entry is removed. -/
theorem After.removed (h : Rep z d') (hrest : Dropped (fun _ => short) (Lib.others Node.key key d.queue) d'.queue) :
    After z short key d d' none := by
  have hnone : Lib.entry Node.key key d'.queue = none := hrest.entry_none entry_others_self
  refine ⟨h, ?_, hnone⟩
  rw [others_of_none hnone]
  exact hrest

/-- A node that the lookup found has the hash of the key. -/
theorem Front.hash (h : Front z d sd n rest) : n.hash = z.crc32_short n.key := by
  have hhash := h.rep.hashed sd h.mem
  rw [h.node] at hhash
  exact hhash

/-! ## Values -/

/-- The node of an item that is stored now. -/
def Item.node (z : Zone) (now : Nat) (item : Item N) (value : Value N) : Node N :=
  { hash := z.crc32_short item.key, key := item.key, value_len := value.len, data := .scalar value
    expires := expiresAt now item.ttl, user_flags := item.user_flags }

/-- Whether a store goes ahead, by the entry it finds. -/
def StoreOp.Writes (now : Nat) (op : StoreOp) (o : Option (Node N)) : Prop :=
  if op.replace then Live now o else op.add = true → ¬ Live now o

/-- A live entry is removed for one of another size, which gets no memory then. -/
def Refused (z : Zone) (now : Nat) (slab : Slab) (op : StoreOp) (item : Item N) (d : Shctx N) : Prop :=
  match d.lookup z now item.key, item.value with
  | (.ok sd, d'), some value =>
    (op.replace = true ∨ op.add = false) ∧
      ¬ (value.len = (d'.node sd).value_len ∧ (d'.node sd).data.isList = false) ∧
      ((d'.remove z sd).allocate z now slab op.safe_store).1 = none
  | _, _ => False

instance (z : Zone) (now : Nat) (slab : Slab) (op : StoreOp) (item : Item N) (d : Shctx N) :
    Decidable (Refused z now slab op item d) := by
  unfold Refused
  split <;> infer_instance

inductive StoreOutcome (z : Zone) (now : Nat) (slab : Slab) (op : StoreOp) (item : Item N) (d : Shctx N) :
    Stored → Option (Node N) → Prop
  | exists (hadd : op.replace = false ∧ op.add = true) (hlive : Live now (d.entry item.key)) :
      StoreOutcome z now slab op item d .exists (d.entry item.key)
  | notFound (hreplace : op.replace = true) (hdead : ¬ Live now (d.entry item.key)) :
      StoreOutcome z now slab op item d .notFound (d.entry item.key)
  | deleted (hwrites : op.Writes now (d.entry item.key)) (hvalue : item.value = none) :
      StoreOutcome z now slab op item d (.ok false) none
  | stored {value : Value N} {forcible : Bool} (hwrites : op.Writes now (d.entry item.key))
      (hvalue : item.value = some value) :
      StoreOutcome z now slab op item d (.ok forcible) (some (item.node z now value))
  | noMemory {value : Value N} {forcible : Bool} (hwrites : op.Writes now (d.entry item.key))
      (hvalue : item.value = some value) (hslab : slab 0 = none)
      (hlost : Live now (d.entry item.key) → Refused z now slab op item d) :
      StoreOutcome z now slab op item d (.noMemory forcible) none

section store

variable {slab : Slab} {op : StoreOp} {item : Item N}

theorem storeInsert_outcome (slab : Slab) (h : Rep z d') (hqueue : d'.queue = others Node.key item.key d.queue)
    (hwrites : op.Writes now (d.entry item.key))
    (hlost : Live now (d.entry item.key) → ∀ value, item.value = some value →
      (d'.allocate z now slab op.safe_store).1 = none → Refused z now slab op item d) :
    ∃ o, After z (slab 0 = none) item.key d (d'.storeInsert z now slab op item).2 o ∧
      StoreOutcome z now slab op item d (d'.storeInsert z now slab op item).1 o := by
  unfold Shctx.storeInsert
  cases hvalue : item.value with
  | none => exact ⟨none, .removed h (by rw [hqueue]; exact .refl), .deleted hwrites hvalue⟩
  | some value =>
    obtain ⟨hrep, hdropped, hshort⟩ := h.allocate now slab op.safe_store
    rw [hqueue] at hdropped
    dsimp only
    generalize d'.allocate z now slab op.safe_store = p at hrep hdropped hshort hlost ⊢
    obtain ⟨mem, forcible, d2⟩ := p
    cases mem with
    | none => exact ⟨none, .removed hrep hdropped, .noMemory hwrites hvalue (hshort rfl) fun hlive =>
        hlost hlive value hvalue rfl⟩
    | some mem =>
      have hfront := hrep.addNode (n := item.node z now value) rfl (hdropped.entry_none entry_others_self)
      exact ⟨_, hfront.after rfl hdropped, .stored hwrites hvalue⟩

theorem storeReplace_outcome (slab : Slab) (h : Front z d' sd n (others Node.key item.key d.queue))
    (hentry : d.entry item.key = some n) (hwrites : op.Writes now (d.entry item.key))
    (hlost : Live now (d.entry item.key) → d.lookup z now item.key = (.ok sd, d')) :
    ∃ o, After z (slab 0 = none) item.key d (d'.storeReplace z now slab op item sd).2 o ∧
      StoreOutcome z now slab op item d (d'.storeReplace z now slab op item sd).1 o := by
  obtain ⟨hrep, hqueue⟩ := h.remove
  have hkey := key_of_entry hentry
  unfold Shctx.storeReplace
  cases hvalue : item.value with
  | none =>
    exact storeInsert_outcome _ hrep hqueue hwrites fun _ value hsome => by
      rw [hvalue] at hsome
      cases hsome
  | some value =>
    dsimp only
    split
    · have hnode : { d'.node sd with
          key := item.key, value_len := value.len, data := .scalar value
          expires := expiresAt now item.ttl, user_flags := item.user_flags } = item.node z now value := by
        dsimp only
        rw [h.node, Item.node, h.hash, hkey]
      rw [hnode]
      have hfront := h.toFront.setNode (item.node z now value) (by rw [h.hash, hkey]; rfl) hkey.symm
      exact ⟨_, hfront.after rfl .refl, .stored hwrites hvalue⟩
    · next hsize =>
      refine storeInsert_outcome _ hrep hqueue hwrites fun hlive value' hsome hnone => ?_
      rw [hvalue] at hsome
      cases hsome
      rw [Refused, hlost hlive, hvalue]
      refine ⟨?_, hsize, hnone⟩
      rw [StoreOp.Writes] at hwrites
      cases hreplace : op.replace with
      | true => exact .inl rfl
      | false =>
        rw [hreplace, if_neg Bool.false_ne_true] at hwrites
        exact .inr (Bool.eq_false_iff.mpr fun hadd => hwrites hadd hlive)

/-- **What a store does.** -/
theorem store_outcome (slab : Slab) (op : StoreOp) (item : Item N) (h : Rep z (d.scanned z now)) :
    ∃ o, After z (slab 0 = none) item.key (d.scanned z now) (d.store z now slab op item).2 o ∧
      StoreOutcome z now slab op item (d.scanned z now) (d.store z now slab op item).1 o := by
  unfold Shctx.store
  unfold Shctx.scanned at h ⊢
  dsimp only
  generalize (d.expire z now 1).2 = d at h ⊢
  rcases h.lookup now item.key with ⟨hnone, hrc⟩ | ⟨n, sd, hentry, hfront, ⟨hexp, hrc⟩ | ⟨hlive, hrc⟩⟩
  · have hdead : ¬ Live now (d.entry item.key) := not_live_none hnone
    have hqueue : d.queue = others Node.key item.key d.queue := (others_of_none hnone).symm
    rw [hrc]
    dsimp only
    split
    · next hreplace => exact ⟨_, .self h, .notFound hreplace hdead⟩
    · next hreplace =>
      have hwrites : op.Writes now (d.entry item.key) := by
        rw [StoreOp.Writes, if_neg hreplace]
        exact fun _ => hdead
      have hinsert := storeInsert_outcome slab h hqueue hwrites fun hlive => absurd hlive hdead
      split
      · exact hinsert
      · exact hinsert
  · have hdead : ¬ Live now (d.entry item.key) := fun hlive => (live_iff hentry).mp hlive hexp
    have hsame : After z (slab 0 = none) item.key d (d.toFront sd) (d.entry item.key) := by
      rw [Shctx.entry, hentry]
      exact hfront.after (key_of_entry hentry) .refl
    rw [hrc]
    dsimp only
    split
    · next hreplace => exact ⟨_, hsame, .notFound hreplace hdead⟩
    · next hreplace =>
      have hwrites : op.Writes now (d.entry item.key) := by
        rw [StoreOp.Writes, if_neg hreplace]
        exact fun _ => hdead
      have hput := storeReplace_outcome slab hfront hentry hwrites fun hlive => absurd hlive hdead
      split
      · exact hput
      · exact hput
  · have halive : Live now (d.entry item.key) := (live_iff hentry).mpr hlive
    have hsame : After z (slab 0 = none) item.key d (d.toFront sd) (d.entry item.key) := by
      rw [Shctx.entry, hentry]
      exact hfront.after (key_of_entry hentry) .refl
    have hput : op.Writes now (d.entry item.key) → _ := fun hwrites =>
      storeReplace_outcome slab hfront hentry hwrites fun _ => hrc
    rw [hrc]
    dsimp only
    split
    · next hreplace => exact hput (by rw [StoreOp.Writes, if_pos hreplace]; exact halive)
    · next hreplace =>
      split
      · next hadd => exact ⟨_, hsame, .exists ⟨Bool.eq_false_iff.mpr hreplace, hadd⟩ halive⟩
      · next hadd => exact hput (by rw [StoreOp.Writes, if_neg hreplace]; exact fun h => absurd h hadd)

end store

/-! ## Reading and counting -/

/-- The entry of the key stays, wherever the lookup is made. -/
theorem lookup_after (short : Prop) (now : Nat) (key : Bytes) (h : Rep z d) :
    After z short key d (d.lookup z now key).2 (d.entry key) := by
  rcases h.lookup now key with ⟨hnone, hrc⟩ | ⟨n, sd, hentry, hfront, ⟨_, hrc⟩ | ⟨_, hrc⟩⟩
  · rw [hrc]
    exact .self h
  · rw [hrc, Shctx.entry, hentry]
    exact hfront.after (key_of_entry hentry) .refl
  · rw [hrc, Shctx.entry, hentry]
    exact hfront.after (key_of_entry hentry) .refl

/-- Where a read looks: it does not scan for a stale value. -/
def Shctx.lookedUp (z : Zone) (now : Nat) (get_stale : Bool) (d : Shctx N) : Shctx N :=
  if get_stale then d else d.scanned z now

/-- What a read gives, by the entry it finds. -/
def fetched (now : Nat) (get_stale : Bool) : Option (Node N) → Fetched N
  | none => .missing
  | some n => if n.expired now then if get_stale then n.fetch true else .missing else n.fetch false

/-- **What a read does.** -/
theorem get_outcome (short : Prop) (key : Bytes) {get_stale : Bool} (h : Rep z (d.lookedUp z now get_stale)) :
    After z short key (d.lookedUp z now get_stale) (d.get z now key get_stale).2
        ((d.lookedUp z now get_stale).entry key) ∧
      (d.get z now key get_stale).1 = fetched now get_stale ((d.lookedUp z now get_stale).entry key) := by
  have hafter := lookup_after short now key h
  unfold Shctx.get
  unfold Shctx.lookedUp Shctx.scanned at h hafter ⊢
  dsimp only
  generalize (if get_stale then d else (d.expire z now 1).2) = d at h hafter ⊢
  rcases h.lookup now key with ⟨hnone, hrc⟩ | ⟨n, sd, hentry, hfront, ⟨hexp, hrc⟩ | ⟨hlive, hrc⟩⟩
  · rw [hrc] at hafter ⊢
    refine ⟨hafter, ?_⟩
    rw [Shctx.entry, hnone]
    rfl
  · have hfetched : fetched now get_stale (d.entry key) = if get_stale then n.fetch true else .missing := by
      rw [Shctx.entry, hentry, fetched, if_pos hexp]
    rw [hrc] at hafter ⊢
    rw [hfetched]
    dsimp only at hafter ⊢
    split
    · exact ⟨hafter, by rw [hfront.node]⟩
    · exact ⟨hafter, rfl⟩
  · have hfetched : fetched now get_stale (d.entry key) = n.fetch false := by
      rw [Shctx.entry, hentry, fetched, if_neg hlive]
    rw [hrc] at hafter ⊢
    rw [hfetched]
    dsimp only at hafter ⊢
    exact ⟨hafter, by rw [hfront.node]⟩

/-! ## Numbers -/

/-- Another key has the hash of this one. -/
def Shctx.Clashes (z : Zone) (key : Bytes) (d : Shctx N) : Prop :=
  ∃ n ∈ d.queue, n.key ≠ key ∧ n.hash = z.crc32_short key

/-- An increment with an initial value makes a new node. -/
def Inserts (now : Nat) (o : Option (Node N)) : Prop :=
  ∀ n ∈ o, n.expired now ∧ ¬ (n.value_len = 8 ∧ n.data.isList = false)

instance (z : Zone) (key : Bytes) (d : Shctx N) : Decidable (d.Clashes z key) :=
  inferInstanceAs (Decidable (∃ n ∈ d.queue, n.key ≠ key ∧ n.hash = z.crc32_short key))

instance (now : Nat) (o : Option (Node N)) : Decidable (Inserts now o) :=
  inferInstanceAs (Decidable (∀ n ∈ o, n.expired now ∧ ¬ (n.value_len = 8 ∧ n.data.isList = false)))

/-- The node of a number that `incr` creates. -/
def numberNode (z : Zone) (key : Bytes) (num : N) : Node N :=
  { hash := z.crc32_short key, key, value_len := 8, data := .scalar (.number num), expires := 0, user_flags := 0 }

inductive IncrOutcome [Add N] (z : Zone) (now : Nat) (slab : Slab) (key : Bytes) (value : N) (init : Option N)
    (d : Shctx N) : Incremented N → Option (Node N) → Prop
  | notFound (hdead : ¬ Live now (d.entry key)) (hinit : init = none) :
      IncrOutcome z now slab key value init d .notFound (d.entry key)
  | notNumber {n : Node N} (hentry : d.entry key = some n) (hlive : ¬ n.expired now)
      (hnot : ∀ num, n.data = .scalar (.number num) → n.value_len ≠ 8) :
      IncrOutcome z now slab key value init d .notNumber (some n)
  | added {n : Node N} {num : N} (hentry : d.entry key = some n) (hlive : ¬ n.expired now)
      (hdata : n.data = .scalar (.number num)) :
      IncrOutcome z now slab key value init d (.added (num + value))
        (some { n with data := .scalar (.number (num + value)) })
  | created {i : N} {forcible : Bool} (hdead : ¬ Live now (d.entry key)) (hinit : init = some i) :
      IncrOutcome z now slab key value init d (.created (value + i) forcible) (some (numberNode z key (value + i)))
  | noMemory {i : N} {forcible : Bool} (hdead : ¬ Live now (d.entry key)) (hinit : init = some i)
      (hslab : slab 0 = none) :
      IncrOutcome z now slab key value init d (.noMemory forcible) none

section incr

variable [Add N] {slab : Slab} {value : N} {init : Option N}

theorem incrInsert_outcome {i : N} (h : Rep z d') (hqueue : d'.queue = others Node.key key d.queue)
    (hdead : ¬ Live now (d.entry key)) (hinit : init = some i) (hclear : ¬ d.Clashes z key) :
    ∃ o, After z (slab 0 = none) key d (d'.incrInsert z now slab key (value + i)).2 o ∧
      IncrOutcome z now slab key value init d (d'.incrInsert z now slab key (value + i)).1 o := by
  obtain ⟨hrep, hdropped, hshort⟩ := h.allocate now slab false
  rw [hqueue] at hdropped
  unfold Shctx.incrInsert
  generalize d'.allocate z now slab false = p at hrep hdropped hshort ⊢
  obtain ⟨mem, forcible, d2⟩ := p
  cases mem with
  | none => exact ⟨none, .removed hrep hdropped, .noMemory hdead hinit (hshort rfl)⟩
  | some mem =>
    dsimp only at hrep hdropped ⊢
    have hfront := hrep.addNode (n := numberNode z key (value + i)) rfl (hdropped.entry_none entry_others_self)
    have hclear2 : ∀ m ∈ d2.queue, m.hash ≠ (numberNode z key (value + i)).hash := by
      intro m hm hhash
      obtain ⟨hin, hkey⟩ := mem_others.mp (hdropped.mem hm)
      exact hclear ⟨m, hin, hkey, hhash⟩
    let junk : Node N := { numberNode z key (value + i) with key := (List.range key.length).map mem }
    have hsame : (d2.addNode z junk).setNode d2.fresh (numberNode z key (value + i)) = _ :=
      hrep.addNode_setNode rfl hclear2
    rw [← hsame] at hfront
    exact ⟨_, hfront.after rfl hdropped, .created hdead hinit⟩

/-- **What an increment does.** -/
theorem incr_outcome (slab : Slab) (value : N) (h : Rep z (d.scanned z now))
    (hclear : init ≠ none → Inserts now ((d.scanned z now).entry key) → ¬ (d.scanned z now).Clashes z key) :
    ∃ o, After z (slab 0 = none) key (d.scanned z now) (d.incr z now slab key value init).2 o ∧
      IncrOutcome z now slab key value init (d.scanned z now) (d.incr z now slab key value init).1 o := by
  have hlookup := lookup_after (slab 0 = none) now key h
  unfold Shctx.incr
  unfold Shctx.scanned at h hclear hlookup ⊢
  dsimp only
  generalize (d.expire z now 1).2 = d at h hclear hlookup ⊢
  rcases h.lookup now key with ⟨hnone, hrc⟩ | ⟨n, sd, hentry, hfront, ⟨hexp, hrc⟩ | ⟨hlive, hrc⟩⟩
  · have hdead : ¬ Live now (d.entry key) := not_live_none hnone
    rw [hrc] at hlookup ⊢
    cases hinit : init with
    | none => exact ⟨_, hlookup, .notFound hdead rfl⟩
    | some i =>
      rw [hinit] at hclear
      have hqueue : d.queue = others Node.key key d.queue := (others_of_none hnone).symm
      have hinserts : Inserts now (d.entry key) := fun n hn => by rw [Shctx.entry, hnone] at hn; cases hn
      exact incrInsert_outcome h hqueue hdead rfl (hclear (Option.some_ne_none i) hinserts)
  · have hdead : ¬ Live now (d.entry key) := fun hlive => (live_iff hentry).mp hlive hexp
    have hkey := key_of_entry hentry
    rw [hrc] at hlookup ⊢
    cases hinit : init with
    | none => exact ⟨_, hlookup, .notFound hdead rfl⟩
    | some i =>
      rw [hinit] at hclear
      obtain ⟨hrep, hqueue⟩ := hfront.remove
      dsimp only
      split
      · next hfits =>
        rw [hfront.node] at hfits
        have hnode : { (d.toFront sd).node sd with
            key := key, data := .scalar (.number (value + i)), expires := 0, user_flags := 0 } =
            numberNode z key (value + i) := by
          rw [hfront.node]
          dsimp only
          rw [hfront.hash, hkey, hfits.1, numberNode]
        rw [hnode]
        have hput := hfront.toFront.setNode (numberNode z key (value + i)) (by rw [hfront.hash, hkey]; rfl) hkey.symm
        exact ⟨_, hput.after rfl .refl, .created hdead rfl⟩
      · next hfits =>
        rw [hfront.node] at hfits
        have hinserts : Inserts now (d.entry key) := fun m hm => by
          rw [Shctx.entry, hentry] at hm
          cases hm
          exact ⟨hexp, hfits⟩
        exact incrInsert_outcome hrep hqueue hdead rfl (hclear (Option.some_ne_none i) hinserts)
  · have hkey := key_of_entry hentry
    have hsame : After z (slab 0 = none) key d (d.toFront sd) (some n) := hfront.after hkey .refl
    rw [hrc]
    dsimp only
    rw [hfront.node]
    cases hdata : n.data with
    | list elems => exact ⟨_, hsame, .notNumber hentry hlive fun num h => by rw [hdata] at h; cases h⟩
    | scalar v =>
      cases v with
      | boolean b => exact ⟨_, hsame, .notNumber hentry hlive fun num h => by rw [hdata] at h; cases h⟩
      | string s => exact ⟨_, hsame, .notNumber hentry hlive fun num h => by rw [hdata] at h; cases h⟩
      | number num =>
        dsimp only
        split
        · next hlen => exact ⟨_, hsame, .notNumber hentry hlive fun _ _ => hlen⟩
        · have hput := hfront.toFront.setNode { n with data := .scalar (.number (num + value)) } rfl rfl
          exact ⟨_, hput.after hkey .refl, .added hentry hlive hdata⟩

end incr

/-! ## Lists -/

/-- A list with a value put to its left or right end. -/
def inserted (left : Bool) (value : Value N) (elems : List (Value N)) : List (Value N) :=
  if left then value :: elems else elems ++ [value]

/-- The key has an expired list. -/
def StaleList (now : Nat) (o : Option (Node N)) : Prop := ∃ n ∈ o, n.expired now ∧ n.data.isList = true

instance (now : Nat) (o : Option (Node N)) : Decidable (StaleList now o) :=
  inferInstanceAs (Decidable (∃ n ∈ o, n.expired now ∧ n.data.isList = true))

inductive PushOutcome (z : Zone) (now : Nat) (slab : Slab) (key : Bytes) (left : Bool) (value : Value N)
    (d : Shctx N) : Pushed → Option (Node N) → Prop
  | notList {n : Node N} (hentry : d.entry key = some n) (hlive : ¬ n.expired now) (hdata : n.data.isList = false) :
      PushOutcome z now slab key left value d .notList (some n)
  | pushed {n : Node N} {elems : List (Value N)} (hentry : d.entry key = some n) (hlive : ¬ n.expired now)
      (hdata : n.data = .list elems) :
      PushOutcome z now slab key left value d (.len ((n.value_len + 1) % 2 ^ 32))
        (some { n with value_len := (n.value_len + 1) % 2 ^ 32, data := .list (inserted left value elems) })
  | started {n : Node N} (hdead : ¬ Live now (d.entry key)) (hlen : n.value_len = 1) (hexpires : n.expires = 0)
      (hdata : n.data = .list [value]) :
      PushOutcome z now slab key left value d (.len 1) (some n)
  | kept {n : Node N} (hentry : d.entry key = some n) (hlive : ¬ n.expired now) (hdata : n.data.isList = true)
      (hslab : slab 1 = none) :
      PushOutcome z now slab key left value d .noMemory (if n.value_len = 0 then none else some n)
  | noMemory (hdead : ¬ Live now (d.entry key)) (hslab : slab 0 = none ∨ slab 1 = none) :
      PushOutcome z now slab key left value d .noMemory none

section push

variable {slab : Slab} {left : Bool} {value : Value N}

theorem initList_outcome (h : Rep z d') (hqueue : d'.queue = others Node.key key d.queue)
    (hdead : ¬ Live now (d.entry key)) :
    ∃ o, After z short key d (d'.initList z slab key left value).2 o ∧
      PushOutcome z now slab key left value d (d'.initList z slab key left value).1 o := by
  have hdropped : Dropped (fun _ => short) (others Node.key key d.queue) d'.queue := by
    rw [hqueue]
    exact .refl
  unfold Shctx.initList
  cases hslab : slab 0 with
  | none => exact ⟨none, .removed h hdropped, .noMemory hdead (.inl hslab)⟩
  | some _ =>
    let n : Node N := { d'.node d'.fresh with hash := z.crc32_short key, key, value_len := 0, expires := 0, data := .list [] }
    have hfront : Front z (d'.addNode z n) d'.fresh n d'.queue :=
      h.addNode rfl (hdropped.entry_none entry_others_self)
    dsimp only
    unfold Shctx.pushNode
    cases hslab1 : slab 1 with
    | none =>
      obtain ⟨hrep, hqueue'⟩ := hfront.remove
      dsimp only
      rw [if_pos (by rw [hfront.node])]
      exact ⟨none, .removed hrep (by rw [hqueue']; exact hdropped), .noMemory hdead (.inr hslab1)⟩
    | some _ =>
      have hput := hfront.setNode { n with value_len := 1, data := .list [value] } rfl rfl
      dsimp only
      rw [hfront.node]
      have hone : (if left = true then [value] else [] ++ [value]) = [value] := by
        cases left
        · rfl
        · rfl
      rw [hone]
      exact ⟨_, hput.after rfl hdropped, .started hdead rfl rfl rfl⟩

/-- **What a push does**, when it does not find an expired list. -/
theorem push_outcome (short : Prop) (slab : Slab) (left : Bool) (h : Rep z (d.scanned z now))
    (hpushable : value.pushable = true)
    (hstale : ¬ StaleList now ((d.scanned z now).entry key)) :
    ∃ o, After z short key (d.scanned z now) (d.push z now slab key left value).2 o ∧
      PushOutcome z now slab key left value (d.scanned z now) (d.push z now slab key left value).1 o := by
  unfold Shctx.push
  unfold Shctx.scanned at h hstale ⊢
  rw [if_neg (by rw [hpushable]; exact Bool.noConfusion)]
  dsimp only
  generalize (d.expire z now 1).2 = d at h hstale ⊢
  rcases h.lookup now key with ⟨hnone, hrc⟩ | ⟨n, sd, hentry, hfront, ⟨hexp, hrc⟩ | ⟨hlive, hrc⟩⟩
  · rw [hrc]
    exact initList_outcome h (others_of_none hnone).symm (not_live_none hnone)
  · have hdead : ¬ Live now (d.entry key) := fun hlive => (live_iff hentry).mp hlive hexp
    have hscalar : n.data.isList = false := Bool.eq_false_iff.mpr fun hlist => hstale ⟨n, hentry, hexp, hlist⟩
    obtain ⟨hrep, hqueue⟩ := hfront.remove
    rw [hrc]
    dsimp only
    rw [hfront.node, if_pos hscalar]
    exact initList_outcome hrep hqueue hdead
  · have hkey := key_of_entry hentry
    rw [hrc]
    dsimp only
    rw [hfront.node]
    cases hdata : n.data with
    | scalar v => exact ⟨_, hfront.after hkey .refl, .notList hentry hlive (by rw [hdata]; rfl)⟩
    | list elems =>
      have hlist : n.data.isList = true := by
        rw [hdata]
        rfl
      have hfront := hfront.toFront
      dsimp only
      unfold Shctx.pushNode
      cases hslab : slab 1 with
      | none =>
        obtain ⟨hrep, hqueue⟩ := hfront.remove
        dsimp only
        rw [hfront.node]
        refine ⟨_, ?_, .kept hentry hlive hlist hslab⟩
        split
        · exact .removed hrep (by rw [hqueue]; exact .refl)
        · exact hfront.after hkey .refl
      | some _ =>
        have hput := hfront.setNode
          { n with value_len := (n.value_len + 1) % 2 ^ 32, data := .list (inserted left value elems) } rfl rfl
        dsimp only
        rw [hfront.node]
        exact ⟨_, hput.after hkey .refl, .pushed hentry hlive hdata⟩

end push

/-- The size of a node is that of its value; a list has elements, which can be
pushed. -/
def Node.Sized (n : Node N) : Prop :=
  match n.data with
  | .scalar v => n.value_len = v.len
  | .list elems => n.value_len = elems.length ∧ elems ≠ [] ∧ ∀ v ∈ elems, v.pushable = true

inductive PopOutcome (now : Nat) (key : Bytes) (left : Bool) (d : Shctx N) : Popped N → Option (Node N) → Prop
  | missing (hdead : ¬ Live now (d.entry key)) : PopOutcome now key left d .missing (d.entry key)
  | notList {n : Node N} (hentry : d.entry key = some n) (hlive : ¬ n.expired now) (hdata : n.data.isList = false) :
      PopOutcome now key left d .notList (some n)
  | popped {n : Node N} {v : Value N} {elems : List (Value N)} (hentry : d.entry key = some n)
      (hlive : ¬ n.expired now) (hdata : n.data = .list (inserted left v elems)) :
      PopOutcome now key left d (.value v)
        (if elems = [] then none else some { n with value_len := n.value_len - 1, data := .list elems })

/-- The value at an end of a list, and the rest. -/
theorem exists_inserted (left : Bool) {elems : List (Value N)} (h : elems ≠ []) :
    ∃ v rest, elems = inserted left v rest ∧ (if left then elems.head? else elems.getLast?) = some v ∧
      (if left then elems.tail else elems.dropLast) = rest := by
  cases left with
  | true =>
    cases elems with
    | nil => exact absurd rfl h
    | cons v rest => exact ⟨v, rest, rfl, rfl, rfl⟩
  | false =>
    refine ⟨elems.getLast h, elems.dropLast, (dropLast_append_getLast h).symm, ?_, rfl⟩
    exact getLast?_eq_getLast_of_ne_nil h

theorem length_inserted (left : Bool) (v : Value N) (elems : List (Value N)) :
    (inserted left v elems).length = elems.length + 1 := by
  unfold inserted
  split
  · rfl
  · exact length_append

theorem mem_inserted {left : Bool} {v w : Value N} {elems : List (Value N)} :
    w ∈ inserted left v elems ↔ w = v ∨ w ∈ elems := by
  unfold inserted
  split
  · exact mem_cons
  · rw [mem_append, mem_singleton, or_comm]

/-- **What a pop does.** -/
theorem pop_outcome (short : Prop) (left : Bool) (h : Rep z (d.scanned z now))
    (hsized : ∀ n, (d.scanned z now).entry key = some n → n.Sized) :
    ∃ r d' o, d.pop z now key left = some (r, d') ∧ After z short key (d.scanned z now) d' o ∧
      PopOutcome now key left (d.scanned z now) r o := by
  have hlookup := lookup_after short now key h
  unfold Shctx.pop
  unfold Shctx.scanned at h hsized hlookup ⊢
  dsimp only
  generalize (d.expire z now 1).2 = d at h hsized hlookup ⊢
  rcases h.lookup now key with ⟨hnone, hrc⟩ | ⟨n, sd, hentry, hfront, ⟨hexp, hrc⟩ | ⟨hlive, hrc⟩⟩
  · rw [hrc] at hlookup ⊢
    exact ⟨_, _, _, rfl, hlookup, .missing (not_live_none hnone)⟩
  · rw [hrc] at hlookup ⊢
    exact ⟨_, _, _, rfl, hlookup, .missing fun hlive => (live_iff hentry).mp hlive hexp⟩
  · have hkey := key_of_entry hentry
    have hn := hsized n hentry
    rw [hrc]
    dsimp only
    rw [hfront.node]
    unfold Node.Sized at hn
    cases hdata : n.data with
    | scalar v => exact ⟨_, _, _, rfl, hfront.after hkey .refl, .notList hentry hlive (by rw [hdata]; rfl)⟩
    | list elems =>
      rw [hdata] at hn
      obtain ⟨hlen, hne, hpushable⟩ := hn
      obtain ⟨v, rest, heq, hv, hrest⟩ := exists_inserted left hne
      have hrestlen : n.value_len = rest.length + 1 := by
        rw [hlen, heq, length_inserted]
      dsimp only
      rw [if_neg (by omega), hv]
      dsimp only
      rw [if_neg (by rw [hpushable v (heq ▸ mem_inserted.mpr (.inl rfl))]; exact Bool.noConfusion), hrest]
      have hdata' : n.data = .list (inserted left v rest) := by
        rw [hdata, heq]
      by_cases hnil : rest = []
      · obtain ⟨hrep, hqueue⟩ := hfront.remove
        rw [if_pos (by rw [hrestlen, hnil]; rfl)]
        refine ⟨_, _, none, rfl, .removed hrep (by rw [hqueue]; exact .refl), ?_⟩
        have hout := PopOutcome.popped hentry hlive hdata'
        rw [if_pos hnil] at hout
        exact hout
      · have hpos := length_pos_iff.mpr hnil
        have hput := hfront.toFront.setNode { n with value_len := n.value_len - 1, data := .list rest } rfl rfl
        rw [if_neg (by omega)]
        refine ⟨_, _, _, rfl, hput.after hkey .refl, ?_⟩
        have hout := PopOutcome.popped hentry hlive hdata'
        rw [if_neg hnil] at hout
        exact hout

/-- What a count gives, by the entry it finds. -/
def counted (now : Nat) : Option (Node N) → Counted
  | none => .len 0
  | some n => if n.expired now then .len 0 else if n.data.isList = false then .notList else .len n.value_len

/-- **What a count does.** -/
theorem llen_outcome (short : Prop) (key : Bytes) (h : Rep z (d.scanned z now)) :
    After z short key (d.scanned z now) (d.llen z now key).2 ((d.scanned z now).entry key) ∧
      (d.llen z now key).1 = counted now ((d.scanned z now).entry key) := by
  have hlookup := lookup_after short now key h
  unfold Shctx.llen
  unfold Shctx.scanned at h hlookup ⊢
  dsimp only
  generalize (d.expire z now 1).2 = d at h hlookup ⊢
  rcases h.lookup now key with ⟨hnone, hrc⟩ | ⟨n, sd, hentry, hfront, ⟨hexp, hrc⟩ | ⟨hlive, hrc⟩⟩
  · rw [hrc] at hlookup ⊢
    refine ⟨hlookup, ?_⟩
    rw [Shctx.entry, hnone]
    rfl
  · rw [hrc] at hlookup ⊢
    refine ⟨hlookup, ?_⟩
    rw [Shctx.entry, hentry, counted, if_pos hexp]
  · have hcounted : counted now (d.entry key) = if n.data.isList = false then .notList else .len n.value_len := by
      rw [Shctx.entry, hentry, counted, if_neg hlive]
    rw [hcounted, hrc]
    dsimp only
    rw [hfront.node, Shctx.entry, hentry]
    split
    · exact ⟨hfront.after (key_of_entry hentry) .refl, rfl⟩
    · exact ⟨hfront.toFront.after (key_of_entry hentry) .refl, rfl⟩

/-! ## All entries -/

/-- **What `flush_all` does**: every node expires, and some at the end go. -/
theorem flushAll_outcome (now : Nat) (h : Rep z d) :
    Rep z (d.flushAll z now) ∧
      Dropped (fun _ => True) (d.queue.map fun n => { n with expires := 1 }) (d.flushAll z now).queue := by
  let node := fun sd => if sd ∈ d.lru_queue then { d.node sd with expires := 1 } else d.node sd
  have hrep : Rep z { d with node } := by
    refine h.changed fun a => ?_
    dsimp only [node]
    split
    · exact ⟨rfl, rfl⟩
    · exact ⟨rfl, rfl⟩
  have hqueue : ({ d with node } : Shctx N).queue = d.queue.map fun n => { n with expires := 1 } := by
    rw [Shctx.queue, Shctx.queue, map_map]
    exact map_congr_left fun a ha => if_pos ha
  rw [← hqueue]
  exact hrep.force now

/-- Only nodes whose time has come are flushed. -/
structure Flushed (z : Zone) (now : Nat) (d d' : Shctx N) : Prop where
  rep : Rep z d'
  kept : ∀ n ∈ d'.queue, n ∈ d.queue
  gone : ∀ n ∈ d.queue, n ∈ d'.queue ∨ n.expires ≠ 0 ∧ n.expires ≤ now

theorem Flushed.trans {d'' : Shctx N} (h : Flushed z now d d') (h' : Flushed z now d' d'') : Flushed z now d d'' where
  rep := h'.rep
  kept := fun n hn => h.kept n (h'.kept n hn)
  gone := fun n hn => (h.gone n hn).elim (h'.gone n) .inr

theorem Rep.flush (h : Rep z d) (hsd : sd ∈ d.lru_queue)
    (hexp : (d.node sd).expires ≠ 0 ∧ (d.node sd).expires ≤ now) :
    Flushed z now d (d.remove z sd) := by
  obtain ⟨hrep, hqueue⟩ := h.remove hsd
  refine ⟨hrep, fun n hn => ?_, fun n hn => ?_⟩
  · rw [hqueue] at hn
    exact (mem_others.mp hn).1
  · by_cases hkey : n.key = (d.node sd).key
    · obtain ⟨a, ha, rfl⟩ := mem_map.mp hn
      rw [h.unique ha hsd hkey]
      exact .inr hexp
    · rw [hqueue]
      exact .inl (mem_others.mpr ⟨hn, hkey⟩)

theorem Rep.flushLoop (h : Rep z d) (attempts : Int) (queue : List Nat) (freed : Nat) (hnodup : queue.Nodup)
    (hqueue : ∀ a ∈ queue, a ∈ d.lru_queue) :
    Flushed z now d (Shctx.flushLoop z now attempts queue freed d).2 := by
  have hself : Flushed z now d d := ⟨h, fun _ hn => hn, fun _ hn => .inl hn⟩
  induction queue generalizing d freed with
  | nil => exact hself
  | cons sd queue ih =>
    obtain ⟨hnot, hnodup⟩ := nodup_cons.mp hnodup
    have hsd := hqueue sd mem_cons_self
    rw [Shctx.flushLoop]
    split
    · next hexp =>
      have hflush := h.flush hsd hexp
      dsimp only
      split
      · exact hflush
      · refine hflush.trans (ih hflush.rep _ hnodup (fun a ha => ?_) ⟨hflush.rep, fun _ hn => hn, fun _ hn =>
          .inl hn⟩)
        have hne : a ≠ sd := fun heq => hnot (heq ▸ ha)
        exact (mem_erase_of_ne hne).mpr (hqueue a (mem_cons_of_mem _ ha))
    · exact ih h _ hnodup (fun a ha => hqueue a (mem_cons_of_mem _ ha)) hself

/-- **What `flush_expired` does.** -/
theorem flushExpired_outcome (now : Nat) (h : Rep z d) (attempts : Int) :
    Flushed z now d (d.flushExpired z now attempts).2 :=
  h.flushLoop attempts _ 0 (nodup_reverse.mpr h.nodup) fun _ ha => mem_reverse.mp ha

end OpenResty.NgxLua.Shdict
