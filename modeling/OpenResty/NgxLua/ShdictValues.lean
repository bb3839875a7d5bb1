/-
A shared dictionary as a map that forgets: in every run, each operation answers
by what was last stored under its key, unless that expired or made room for
another entry, and the tree and the queue stay in step.
-/
import OpenResty.NgxLua.ShdictLists

namespace OpenResty.NgxLua.Shdict

open Lib Lib.Transition Option

variable {N : Type}

/-! ## Records and what is remembered -/

/-- What is stored under a key; a list has no user flags. -/
structure Record (N : Type) where
  data : Data N
  user_flags : Nat
  expires : Nat

def Node.record (n : Node N) : Record N :=
  { data := n.data, user_flags := if n.data.isList then 0 else n.user_flags, expires := n.expires }

def Shctx.record (d : Shctx N) (key : Bytes) : Option (Record N) := (d.entry key).map Node.record

/-- A record until it expires. -/
def current (now : Nat) (m : Option (Record N)) :
    Option (Record N) := m.filter fun r => r.expires = 0 ∨ now < r.expires

/-- A record that does not expire -/
def Record.lasting (data : Data N) : Record N := { data, user_flags := 0, expires := 0 }

def Record.elems (m : Option (Record N)) : List (Value N) := (m.map fun r => r.data.elems).getD []

/-- What is under the key of `op` when that gave `r`, and `m` was there. -/
def remembered (now : Nat) (op : Op N) (r : Result N) (m : Option (Record N)) : Option (Record N) :=
  match op, r with
  | .store _ item, .stored (.ok _) =>
    item.value.map fun value =>
      { data := .scalar value, user_flags := item.user_flags, expires := item.ttl.elim 0 (now + ·) }
  | .incr _ _ _, .incremented (.added num) => m.map fun r => { r with data := .scalar (.number num) }
  | .incr _ _ _, .incremented (.created num _) => some (.lasting (.scalar (.number num)))
  | .push _ left value, .pushed (.len _) => some (.lasting (.list (inserted left value (Record.elems m))))
  | .pop _ left, .popped (.value _) =>
    let elems := if left then (Record.elems m).tail else (Record.elems m).dropLast
    if elems = [] then none else some (.lasting (.list elems))
  | _, _ => m

def Op.key? : Op N → Option Bytes
  | .store _ item => some item.key
  | .get key _ | .incr key _ _ | .push key _ _ | .pop key _ | .llen key => some key
  | .flushAll | .flushExpired _ | .getKeys _ => none

/-- Operations that make room for an entry by removing others. -/
def Op.evicts : Op N → Bool
  | .store _ _ | .incr _ _ _ => true
  | _ => false

/-- What `op` gives when `m` is under its key. -/
def Replies [Add N] (slab : Slab) (op : Op N) (r : Result N) (m : Option (Record N)) : Prop :=
  match op, r with
  | .store op _, .stored s =>
    match s with
    | .ok _ => if op.replace then m.isSome = true else op.add = true → m.isNone = true
    | .exists => op.replace = false ∧ op.add = true ∧ m.isSome
    | .notFound => op.replace = true ∧ m.isNone
    | .noMemory _ => slab 0 = none
  | .get _ get_stale, .fetched f =>
    match m with
    | none => f = .missing ∨ get_stale = true ∧ ∀ v flags, f ≠ .value v flags false
    | some { data := .scalar v, user_flags, .. } => f = .value v user_flags false
    | some { data := .list _, .. } => f = .isList
  | .incr _ value init, .incremented i =>
    match m with
    | none =>
      match init with
      | none => i = .notFound
      | some init => ∃ forcible, i = .created (value + init) forcible ∨ i = .noMemory forcible ∧ slab 0 = none
    | some { data := .scalar (.number num), .. } => i = .added (num + value)
    | some _ => i = .notNumber
  | .push _ _ value, .pushed p =>
    match p with
    | .len n => value.pushable = true ∧ (∀ r ∈ m, r.data.isList = true) ∧ n = (Record.elems m).length + 1
    | .badType => value.pushable = false
    | .notList => ∃ r ∈ m, r.data.isList = false
    | .noMemory => slab 0 = none ∨ slab 1 = none
  | .pop _ left, .popped p =>
    match p with
    | .value v => ∃ elems, m = some (.lasting (.list (inserted left v elems)))
    | .missing => m = none
    | .notList => ∃ r ∈ m, r.data.isList = false
    | .badLength | .badType => False
  | .llen _, .counted c =>
    match c with
    | .len n => (∀ r ∈ m, r.data.isList = true) ∧ n = (Record.elems m).length
    | .notList => ∃ r ∈ m, r.data.isList = false
  | _, _ => True

/-- A state with what was last stored under each key and not removed for room. -/
structure Recall (N : Type) where
  state : State N
  memory : Bytes → Option (Record N)

/-- What is remembered after `op`; another key is forgotten when its entry,
which had not expired, is gone. -/
def remember (now : Nat) (op : Op N) (r : Result N) (d d' : Shctx N) (memory : Bytes → Option (Record N))
    (key : Bytes) :
    Option (Record N) :=
  match op with
  | .flushAll => none
  | op =>
    if op.key? = some key then remembered now op r (current now (memory key))
    else if (current now (d.record key)).isSome ∧ (d'.entry key).isNone then none
    else memory key

def recallStep [Add N] (z : Zone) (x : Recall N) (e : Event N) : Option (Recall N) :=
  (stepResult z x.state e).map fun (r, state) =>
    { state, memory := remember state.now e.op r x.state.dict state.dict x.memory }

/-- What a step is to do: tree and queue are in step, the answer is that of the
memory, every key reads as remembered, and entries of other keys go from the
end of the queue only, as they expire or, for a new entry, when there is no memory. -/
structure Recall.Right [Add N] (z : Zone) (x : Recall N) (e : Event N) (x' : Recall N) : Prop where
  rep : Rep z x'.state.dict
  replies : ∃ r, stepResult z x.state e = some (r, x'.state) ∧
    ∀ key, e.op.key? = some key → Replies e.slab e.op r (current x'.state.now (x.memory key))
  reads : ∀ key, current x'.state.now (x'.state.dict.record key) = current x'.state.now (x'.memory key)
  others : ∀ key, e.op.key? = some key →
    Dropped (fun n => n.expires ≠ 0 ∧ n.expires ≤ x'.state.now ∨ e.slab 0 = none ∧ e.op.evicts = true)
      (others Node.key key x.state.dict.queue) (others Node.key key x'.state.dict.queue)
  flushed : ∀ attempts, e.op = .flushExpired attempts →
    ∀ key, current x'.state.now (x'.state.dict.record key) = current x'.state.now (x.state.dict.record key)

/-- The entry that `op` finds. -/
def Op.found (z : Zone) (now : Nat) (d : Shctx N) : Op N → Option (Node N)
  | .store _ item => (d.scanned z now).entry item.key
  | .get key get_stale => (d.lookedUp z now get_stale).entry key
  | .incr key _ _ | .pop key _ | .llen key => (d.scanned z now).entry key
  | .push key _ value => if value.pushable then (d.scanned z now).entry key else none
  | .flushAll | .flushExpired _ | .getKeys _ => none

/-- As for lists; further, no entry is found in the very millisecond in which it
expires, none is stored for 2^63 milliseconds or more, and none is stored over a
live one of another size without memory. -/
def Recall.Careful (z : Zone) (x : Recall N) (e : Event N) : Prop :=
  let now := x.state.now + e.elapsed
  Clock now ∧ CarefulOp z now x.state.dict e.op ∧ (∀ n ∈ e.op.found z now x.state.dict, n.expires ≠ now) ∧
    match e.op with
    | .store op item => (∀ ttl ∈ item.ttl, ttl < 2 ^ 63) ∧ ¬ Refused z now e.slab op item (x.state.dict.scanned z now)
    | _ => True

instance (z : Zone) (x : Recall N) : (e : Event N) → Decidable (x.Careful z e)
  | { elapsed, op, slab } =>
    have hstore : Decidable (match op with
        | .store op item => (∀ ttl ∈ item.ttl, ttl < 2 ^ 63) ∧
            ¬ Refused z (x.state.now + elapsed) slab op item (x.state.dict.scanned z (x.state.now + elapsed))
        | _ => True) := by
      cases op <;> infer_instance
    inferInstanceAs (Decidable ((1 < x.state.now + elapsed ∧ x.state.now + elapsed < 2 ^ 63) ∧ CarefulOp .. ∧ _ ∧ _))

/-! ## One operation -/

variable {z : Zone} {d d' : Shctx N} {key : Bytes} {now : Nat} {slab : Slab} {n : Node N} {o : Option (Node N)}

/-- A node whose time to live is below 2^63. -/
def Node.Sound (now : Nat) (n : Node N) : Prop := n.Good ∧ n.expires < now + 2 ^ 63

/-- A node that does not expire, or that was flushed. -/
theorem Node.Good.sound (h : n.Good) (hexpires : n.expires ≤ 1) : n.Sound now := ⟨h, by omega⟩

theorem Node.Sound.ms (h : n.Sound now) (hclock : Clock now) : n.ms now = n.expires - now := by
  have hsoon := h.2
  have hlt := hclock.2
  exact int64_of_bounds (by omega) (by omega)

theorem Node.Sound.expired_iff (h : n.Sound now) (hclock : Clock now) :
    n.expired now ↔ n.expires ≠ 0 ∧ n.expires < now := by
  rw [Node.expired, h.ms hclock]
  omega

theorem Node.Sound.scanned_iff (h : n.Sound now) (hclock : Clock now) :
    n.scanned now ↔ n.expires ≠ 0 ∧ n.expires ≤ now := by
  rw [Node.scanned, h.ms hclock]
  omega

theorem current_some {r : Record N} (h : r.expires = 0 ∨ now < r.expires) : current now (some r) = some r := by
  rw [current, filter_some, if_pos (by simpa using h)]

theorem current_expired {r : Record N} (h : r.expires ≠ 0 ∧ r.expires ≤ now) : current now (some r) = none := by
  rw [current, filter_some, if_neg]
  simp only [decide_eq_true_eq, not_or, not_lt]
  exact h

@[simp] theorem current_current (m : Option (Record N)) : current now (current now m) = current now m := by
  unfold current
  rw [filter_filter]
  simp

/-- A live entry is what is read. -/
theorem current_live (hsound : ∀ n ∈ d.queue, n.Sound now) (hclock : Clock now) (hentry : d.entry key = some n)
    (hlive : ¬ n.expired now) (hedge : n.expires ≠ now) : current now (d.record key) = some n.record := by
  rw [Shctx.record, hentry]
  refine current_some ?_
  rw [(hsound n (mem_of_entry hentry)).expired_iff hclock] at hlive
  show n.expires = 0 ∨ now < n.expires
  omega

theorem current_dead (hsound : ∀ n ∈ d.queue, n.Sound now) (hclock : Clock now) (hdead : ¬ Live now (d.entry key)) :
    current now (d.record key) = none := by
  rw [Shctx.record]
  cases hentry : d.entry key with
  | none => rfl
  | some n =>
    have hexp : n.expired now := Classical.not_not.mp fun hlive => hdead ((live_iff hentry).mpr hlive)
    obtain ⟨hne, hlt⟩ := ((hsound n (mem_of_entry hentry)).expired_iff hclock).mp hexp
    exact current_expired ⟨hne, Nat.le_of_lt hlt⟩

/-- The scan takes nothing that could be read. -/
theorem current_scan (h : Rep z d) (hclock : Clock now) (hsound : ∀ n ∈ d.queue, n.Sound now) :
    current now ((d.scanned z now).record key) = current now (d.record key) := by
  unfold Shctx.record
  rcases (h.scan now).2.entry Node.key key with hsame | ⟨hnone, n, hn, hgone⟩
  · rw [Shctx.entry, hsame]
  · have hexp := ((hsound n (mem_of_entry hn)).scanned_iff hclock).mp hgone
    rw [Shctx.entry, hnone, Shctx.entry, hn]
    exact (current_expired hexp).symm

/-- What an operation on one key is to do, from where it looks. -/
structure Told [Add N] (z : Zone) (now : Nat) (slab : Slab) (op : Op N) (key : Bytes) (d : Shctx N) (r : Result N)
    (d' : Shctx N) : Prop where
  rep : Rep z d'
  sound : ∀ n ∈ d'.queue, n.Sound now
  replies : Replies slab op r (current now (d.record key))
  reads : current now (d'.record key) = current now (remembered now op r (current now (d.record key)))
  others :
    Dropped (fun n => n.expires ≠ 0 ∧ n.expires ≤ now ∨ slab 0 = none ∧ op.evicts = true)
      (others Node.key key d.queue) (others Node.key key d'.queue)

variable {r : Result N}

/-- The scan before an operation changes nothing that is told. -/
theorem Told.of_scan [Add N] {op : Op N} (h : Rep z d) (hclock : Clock now)
    (hsound : ∀ n ∈ d.queue, n.Sound now) (htold : Told z now slab op key (d.scanned z now) r d') :
    Told z now slab op key d r d' := by
  obtain ⟨hrep, hsound', hreplies, hreads, hothers⟩ := htold
  rw [current_scan h hclock hsound] at hreplies hreads
  refine ⟨hrep, hsound', hreplies, hreads,
    Dropped.trans (Dropped.others ((h.scan now).2.mono fun n hn hgone => ?_)) hothers⟩
  exact .inl (((hsound n hn).scanned_iff hclock).mp hgone)

theorem After.told [Add N] {op : Op N} (h : After z (slab 0 = none ∧ op.evicts = true) key d d' o)
    (hsound : ∀ n ∈ d.queue, n.Sound now) (hnode : ∀ n, o = some n → n.Sound now)
    (hreplies : Replies slab op r (current now (d.record key)))
    (hreads : current now (o.map Node.record) = current now (remembered now op r (current now (d.record key)))) :
    Told z now slab op key d r d' := by
  refine ⟨h.rep, h.forall hnode hsound, hreplies, ?_, h.others.mono fun _ _ hshort => .inr hshort⟩
  rw [Shctx.record, h.entry]
  exact hreads

/-- Where nothing is remembered anew, the entry may stay as it is. -/
theorem current_same {op : Op N} {m : Option (Record N)}
    (hsame : remembered now op r (current now m) = current now m) :
    current now m = current now (remembered now op r (current now m)) := by
  rw [hsame, current_current]

theorem expiresAt_sound {ttl : Option Nat} (hclock : Clock now) (httl : ∀ t ∈ ttl, t < 2 ^ 63) :
    expiresAt now ttl = ttl.elim 0 (now + ·) ∧ expiresAt now ttl < now + 2 ^ 63 := by
  have hlt := hclock.2
  unfold expiresAt
  cases ttl with
  | none => exact ⟨rfl, Nat.lt_of_lt_of_le (Nat.two_pow_pos 63) (Nat.le_add_left ..)⟩
  | some t =>
    have ht := httl t rfl
    dsimp only [elim_some]
    rw [Nat.mod_eq_of_lt (by omega)]
    exact ⟨rfl, by omega⟩

section store

variable [Add N] {op : StoreOp} {item : Item N}

theorem store_told (hclock : Clock now) (h : Rep z (d.scanned z now))
    (hsound : ∀ n ∈ (d.scanned z now).queue, n.Sound now)
    (hedge : ∀ n, (d.scanned z now).entry item.key = some n → n.expires ≠ now)
    (httl : (∀ ttl ∈ item.ttl, ttl < 2 ^ 63))
    (hkept : ¬ Refused z now slab op item (d.scanned z now)) :
    Told z now slab (.store op item) item.key (d.scanned z now) (.stored (d.store z now slab op item).1)
      (d.store z now slab op item).2 := by
  obtain ⟨o, hafter, hout⟩ := store_outcome slab op item h
  have hafter : After z (slab 0 = none ∧ (Op.store op item).evicts = true) _ _ _ _ :=
    { hafter with others := hafter.others.mono fun _ _ hslab => ⟨hslab, rfl⟩ }
  generalize (d.store z now slab op item).1 = r at hout ⊢
  generalize d.scanned z now = d1 at h hsound hedge hkept hafter hout ⊢
  have hentry : ∀ n, d1.entry item.key = some n → n.Sound now := fun n hn => hsound n (mem_of_entry hn)
  have hlive : Live now (d1.entry item.key) → (current now (d1.record item.key)).isSome = true := by
    intro ⟨n, hn, halive⟩
    rw [current_live hsound hclock hn halive (hedge n hn)]
    rfl
  have hdead : ¬ Live now (d1.entry item.key) → (current now (d1.record item.key)).isNone = true := by
    intro hdead
    rw [current_dead hsound hclock hdead]
    rfl
  have hok : op.Writes now (d1.entry item.key) → ∀ forcible, Replies slab (.store op item) (.stored (.ok forcible))
      (current now (d1.record item.key)) := by
    intro hwrites _
    rw [StoreOp.Writes] at hwrites
    unfold Replies
    dsimp only
    split at hwrites
    · next hreplace =>
      rw [if_pos hreplace]
      exact hlive hwrites
    · next hreplace =>
      rw [if_neg hreplace]
      exact fun hadd => hdead (hwrites hadd)
  cases hout with
  | «exists» hadd halive => exact hafter.told hsound hentry ⟨hadd.1, hadd.2, hlive halive⟩ (current_same rfl)
  | notFound hreplace hgone => exact hafter.told hsound hentry ⟨hreplace, hdead hgone⟩ (current_same rfl)
  | deleted hwrites hvalue =>
    refine hafter.told hsound (fun n hn => by cases hn) (hok hwrites _) ?_
    rw [remembered, hvalue]
    rfl
  | @stored value forcible hwrites hvalue =>
    obtain ⟨hexpires, hsoon⟩ := expiresAt_sound hclock httl
    refine hafter.told hsound (fun n hn => ?_) (hok hwrites _) ?_
    · cases hn
      exact ⟨⟨rfl, fun hlist => by cases hlist⟩, hsoon⟩
    · rw [remembered, hvalue, map_some, map_some, Node.record, Item.node, hexpires]
      rfl
  | noMemory hwrites hvalue hslab hlost =>
    have hgone : ¬ Live now (d1.entry item.key) := fun halive => hkept (hlost halive)
    refine hafter.told hsound (fun n hn => by cases hn) hslab ?_
    rw [current_dead hsound hclock hgone]
    rfl

end store

theorem fetch_sized (h : n.Sized) (stale : Bool) :
    n.fetch stale = match n.data with
      | .scalar v => .value v n.user_flags stale
      | .list _ => .isList := by
  rw [Node.Sized] at h
  rw [Node.fetch]
  cases hdata : n.data with
  | list elems => rfl
  | scalar v =>
    rw [hdata] at h
    cases v with
    | boolean b =>
      have hlen : n.value_len = 1 := h
      simp [hlen]
    | number num =>
      have hlen : n.value_len = 8 := h
      simp [hlen]
    | string s => rfl

section read

variable [Add N]

theorem get_told (get_stale : Bool) (hclock : Clock now) (h : Rep z (d.lookedUp z now get_stale))
    (hsound : ∀ n ∈ (d.lookedUp z now get_stale).queue, n.Sound now)
    (hedge : ∀ n, (d.lookedUp z now get_stale).entry key = some n → n.expires ≠ now) :
    Told z now slab (.get key get_stale) key (d.lookedUp z now get_stale) (.fetched (d.get z now key get_stale).1)
      (d.get z now key get_stale).2 := by
  obtain ⟨hafter, hfetched⟩ :=
    get_outcome (slab 0 = none ∧ (Op.get key get_stale : Op N).evicts = true) key h
  generalize d.lookedUp z now get_stale = d1 at h hsound hedge hafter hfetched ⊢
  have hentry : ∀ n, d1.entry key = some n → n.Sound now := fun n hn => hsound n (mem_of_entry hn)
  refine hafter.told hsound hentry ?_ (current_same rfl)
  rw [hfetched]
  cases hfound : d1.entry key with
  | none =>
    rw [current_dead hsound hclock (not_live_none hfound)]
    exact .inl rfl
  | some n =>
    rw [fetched]
    split
    · next hexp =>
      rw [current_dead hsound hclock fun hlive => (live_iff hfound).mp hlive hexp]
      split
      · next hstale =>
        refine .inr ⟨hstale, fun v flags hv => ?_⟩
        unfold Node.fetch at hv
        grind
      · exact .inl rfl
    · next hlive =>
      have hn := hentry n hfound
      rw [current_live hsound hclock hfound hlive (hedge n hfound)]
      rw [fetch_sized hn.1.1, Node.record]
      cases n.data with
      | list elems => rfl
      | scalar v => rfl

theorem llen_told (hclock : Clock now) (h : Rep z (d.scanned z now))
    (hsound : ∀ n ∈ (d.scanned z now).queue, n.Sound now)
    (hedge : ∀ n, (d.scanned z now).entry key = some n → n.expires ≠ now) :
    Told z now slab (.llen key) key (d.scanned z now) (.counted (d.llen z now key).1) (d.llen z now key).2 := by
  obtain ⟨hafter, hcounted⟩ := llen_outcome (slab 0 = none ∧ (Op.llen key : Op N).evicts = true) key h
  generalize d.scanned z now = d1 at h hsound hedge hafter hcounted ⊢
  have hentry : ∀ n, d1.entry key = some n → n.Sound now := fun n hn => hsound n (mem_of_entry hn)
  refine hafter.told hsound hentry ?_ (current_same rfl)
  rw [hcounted]
  cases hfound : d1.entry key with
  | none =>
    rw [current_dead hsound hclock (not_live_none hfound)]
    exact ⟨fun r hr => (by cases hr), rfl⟩
  | some n =>
    rw [counted]
    split
    · next hexp =>
      rw [current_dead hsound hclock fun hlive => (live_iff hfound).mp hlive hexp]
      exact ⟨fun r hr => (by cases hr), rfl⟩
    · next hlive =>
      have hn := hentry n hfound
      rw [current_live hsound hclock hfound hlive (hedge n hfound)]
      split
      · next hdata => exact ⟨_, rfl, hdata⟩
      · next hdata =>
        have hlist : n.data.isList = true := Bool.not_eq_false _ ▸ hdata
        obtain ⟨elems, helems, hlen, -⟩ := hn.1.isList hlist
        refine ⟨fun r hr => ?_, ?_⟩
        · cases hr
          exact hlist
        · rw [hlen, Record.elems, map_some, getD_some, Node.record, helems, Data.elems]

end read

theorem incr_told [Add N] {value : N} {init : Option N} (hclock : Clock now) (h : Rep z (d.scanned z now))
    (hsound : ∀ n ∈ (d.scanned z now).queue, n.Sound now)
    (hedge : ∀ n, (d.scanned z now).entry key = some n → n.expires ≠ now)
    (hclear : init ≠ none → Inserts now ((d.scanned z now).entry key) → ¬ (d.scanned z now).Clashes z key) :
    Told z now slab (.incr key value init) key (d.scanned z now) (.incremented (d.incr z now slab key value init).1)
      (d.incr z now slab key value init).2 := by
  obtain ⟨o, hafter, hout⟩ := incr_outcome slab value h hclear
  have hafter : After z (slab 0 = none ∧ (Op.incr key value init).evicts = true) _ _ _ _ :=
    { hafter with others := hafter.others.mono fun _ _ hslab => ⟨hslab, rfl⟩ }
  generalize (d.incr z now slab key value init).1 = r at hout ⊢
  generalize d.scanned z now = d1 at h hsound hedge hafter hout ⊢
  have hentry : ∀ n, d1.entry key = some n → n.Sound now := fun n hn => hsound n (mem_of_entry hn)
  cases hout with
  | notFound hdead hinit =>
    refine hafter.told hsound hentry ?_ (current_same rfl)
    rw [current_dead hsound hclock hdead, hinit]
    rfl
  | @notNumber n hfound hlive hnot =>
    have hn := hentry n hfound
    have hsized := hn.1.1
    rw [Node.Sized] at hsized
    rw [← hfound] at hafter
    refine hafter.told hsound hentry ?_ (current_same rfl)
    rw [current_live hsound hclock hfound hlive (hedge n hfound), Node.record]
    cases hdata : n.data with
    | list elems => rfl
    | scalar v =>
      rw [hdata] at hsized
      cases v with
      | boolean b => rfl
      | string s => rfl
      | number num => exact absurd hsized (hnot num hdata)
  | @added n num hfound hlive hdata =>
    have hn := hentry n hfound
    have hsized := hn.1.1
    rw [Node.Sized, hdata] at hsized
    refine hafter.told hsound (fun m hm => ?_) ?_ ?_
    · cases hm
      exact ⟨⟨hsized, fun hlist => by cases hlist⟩, hn.2⟩
    · rw [current_live hsound hclock hfound hlive (hedge n hfound), Node.record, hdata]
      rfl
    · rw [current_live hsound hclock hfound hlive (hedge n hfound), remembered, map_some,
        map_some, Node.record, Node.record, hdata]
      rfl
  | @created i forcible hdead hinit =>
    refine hafter.told hsound (fun m hm => ?_) ?_ rfl
    · cases hm
      exact Node.Good.sound ⟨rfl, fun hlist => by cases hlist⟩ (Nat.zero_le 1)
    · rw [current_dead hsound hclock hdead, hinit]
      exact ⟨forcible, .inl rfl⟩
  | @noMemory i forcible hdead hinit hslab =>
    refine hafter.told hsound (fun m hm => by cases hm) ?_ ?_
    · rw [current_dead hsound hclock hdead, hinit]
      exact ⟨forcible, .inr ⟨rfl, hslab⟩⟩
    · rw [current_dead hsound hclock hdead]
      rfl

/-! ## Lists among the values -/

/-- A live list is read without flags, and does not expire. -/
theorem current_list (hsound : ∀ n ∈ d.queue, n.Sound now) (hclock : Clock now) (hentry : d.entry key = some n)
    (hlive : ¬ n.expired now) {elems : List (Value N)} (hdata : n.data = .list elems) :
    n.expires = 0 ∧ current now (d.record key) = some (.lasting (.list elems)) := by
  have hzero := (hsound n (mem_of_entry hentry)).1.live hclock hlive hdata
  have hedge : n.expires ≠ now := by
    rw [hzero]
    exact Nat.ne_of_lt (Nat.lt_trans Nat.zero_lt_one hclock.1)
  refine ⟨hzero, ?_⟩
  rw [current_live hsound hclock hentry hlive hedge, Node.record, hdata, hzero]
  rfl

section lists

variable [Add N] {left : Bool} {value : Value N}

theorem push_told (hclock : Clock now) (h : Rep z (d.scanned z now))
    (hsound : ∀ n ∈ (d.scanned z now).queue, n.Sound now)
    (hedge : ∀ n, (d.scanned z now).entry key = some n → n.expires ≠ now) (hpushable : value.pushable = true)
    (hstale : ¬ StaleList now ((d.scanned z now).entry key))
    (hlen : (listOf ((d.scanned z now).entry key)).length + 1 < 2 ^ 32) :
    Told z now slab (.push key left value) key (d.scanned z now) (.pushed (d.push z now slab key left value).1)
      (d.push z now slab key left value).2 := by
  obtain ⟨o, hafter, hout⟩ :=
    push_outcome (slab 0 = none ∧ (Op.push key left value).evicts = true) slab left h
      hpushable hstale
  have hfine := push_fine slab left hclock h (fun n hn => (hsound n hn).1) hpushable hstale hlen
  generalize (d.push z now slab key left value).1 = r at hout hfine ⊢
  generalize d.scanned z now = d1 at h hsound hedge hstale hlen hafter hout hfine ⊢
  have hgood : ∀ n, o = some n → n.Good := by
    intro n hn
    exact hfine.good n (mem_of_entry (hafter.entry.trans hn))
  cases hout with
  | @notList n hentry hlive hdata =>
    have hread := current_live hsound hclock hentry hlive (hedge n hentry)
    rw [← hentry] at hafter
    refine hafter.told hsound (fun m hm => hsound m (mem_of_entry hm)) ?_ (current_same rfl)
    rw [hread]
    exact ⟨_, rfl, hdata⟩
  | @pushed n elems hentry hlive hdata =>
    obtain ⟨hzero, hread⟩ := current_list hsound hclock hentry hlive hdata
    have hgood' := hgood _ rfl
    refine hafter.told hsound (fun m hm => ?_) ?_ ?_
    · cases hm
      exact hgood'.sound (by rw [hzero]; exact Nat.zero_le 1)
    · rw [hread]
      refine ⟨hpushable, fun r hr => (by cases hr; rfl), ?_⟩
      exact ((hgood'.list rfl).1).trans (length_inserted ..)
    · rw [hread, remembered, map_some, Node.record, hzero]
      rfl
  | @started n hdead hone hzero hdata =>
    have hread := current_dead hsound hclock hdead
    refine hafter.told hsound (fun m hm => ?_) ?_ ?_
    · cases hm
      exact (hgood n rfl).sound (by rw [hzero]; exact Nat.zero_le 1)
    · rw [hread]
      exact ⟨hpushable, fun r hr => (by cases hr), rfl⟩
    · have hsingle : inserted left value [] = [value] := by
        cases left
        · rfl
        · rfl
      rw [hread, remembered, map_some, Node.record, hzero, hdata, Record.elems, map_none,
        getD_none, hsingle]
      rfl
  | @kept n hentry hlive hdata hslab =>
    obtain ⟨elems, -, hlen', hnil⟩ := (hsound n (mem_of_entry hentry)).1.isList hdata
    have hne : n.value_len ≠ 0 := by
      rw [hlen']
      exact Nat.ne_of_gt (List.length_pos_iff.mpr hnil)
    rw [if_neg hne, ← hentry] at hafter
    exact hafter.told hsound (fun m hm => hsound m (mem_of_entry hm)) (.inr hslab) (current_same rfl)
  | noMemory hdead hslab =>
    refine hafter.told hsound (fun m hm => by cases hm) hslab ?_
    rw [current_dead hsound hclock hdead]
    rfl

theorem pop_told (slab : Slab) (key : Bytes) (left : Bool) (hclock : Clock now) (h : Rep z (d.scanned z now))
    (hsound : ∀ n ∈ (d.scanned z now).queue, n.Sound now)
    (hedge : ∀ n, (d.scanned z now).entry key = some n → n.expires ≠ now) :
    ∃ r d', d.pop z now key left = some (r, d') ∧
      Told z now slab (.pop key left) key (d.scanned z now) (.popped r) d' := by
  have hsized : ∀ n, (d.scanned z now).entry key = some n → n.Sized := fun n hn => (hsound n (mem_of_entry hn)).1.1
  obtain ⟨r, d', o, hrun, hafter, hout⟩ :=
    pop_outcome (slab 0 = none ∧ (Op.pop key left : Op N).evicts = true) left h hsized
  refine ⟨r, d', hrun, ?_⟩
  generalize d.scanned z now = d1 at h hsound hedge hafter hout ⊢
  cases hout with
  | missing hdead =>
    refine hafter.told hsound (fun m hm => hsound m (mem_of_entry hm)) ?_ (current_same rfl)
    exact current_dead hsound hclock hdead
  | @notList n hentry hlive hdata =>
    have hread := current_live hsound hclock hentry hlive (hedge n hentry)
    rw [← hentry] at hafter
    refine hafter.told hsound (fun m hm => hsound m (mem_of_entry hm)) ?_ (current_same rfl)
    rw [hread]
    exact ⟨_, rfl, hdata⟩
  | @popped n v elems hentry hlive hdata =>
    obtain ⟨hzero, hread⟩ := current_list hsound hclock hentry hlive hdata
    have hn := (hsound n (mem_of_entry hentry)).1
    obtain ⟨hcount, -, hall⟩ := hn.list hdata
    have hrest : (if left then (inserted left v elems).tail else (inserted left v elems).dropLast) = elems := by
      cases left
      · exact List.dropLast_concat
      · rfl
    refine hafter.told hsound (fun m hm => ?_) ?_ ?_
    · split at hm
      · cases hm
      · next hne =>
        cases hm
        refine Node.Good.sound ⟨⟨?_, hne, fun w hw => hall w (mem_inserted.mpr (.inr hw))⟩, fun _ => ?_⟩ ?_
        · rw [hcount, length_inserted]
          rfl
        · rw [hzero]
          exact Nat.zero_le 1
        · rw [hzero]
          exact Nat.zero_le 1
    · rw [hread]
      exact ⟨elems, rfl⟩
    · rw [hread]
      unfold remembered Record.elems Record.lasting Data.elems
      dsimp only [map_some, getD_some]
      rw [hrest]
      split
      · rfl
      · rw [map_some, Node.record, hzero]
        rfl

end lists

/-! ## Runs -/

theorem run_told (slab : Slab) [Add N] {op : Op N} (hclock : Clock now) (h : Rep z d)
    (hsound : ∀ n ∈ d.queue, n.Sound now) (hkey : op.key? = some key)
    (hop : CarefulOp z now d op) (hedge : ∀ n ∈ op.found z now d, n.expires ≠ now)
    (hstore : ∀ o item, op = .store o item → (∀ ttl ∈ item.ttl, ttl < 2 ^ 63) ∧
    ¬ Refused z now slab o item (d.scanned z now)) :
    ∃ r d', op.run z now slab d = some (r, d') ∧ Told z now slab op key d r d' := by
  obtain ⟨hscan, hdropped⟩ := h.scan now
  have hsound' : ∀ n ∈ (d.scanned z now).queue, n.Sound now := fun n hn => hsound n (hdropped.mem hn)
  cases op with
  | store op item =>
    cases hkey
    obtain ⟨httl, hkept⟩ := hstore op item rfl
    exact ⟨_, _, rfl, .of_scan h hclock hsound (store_told hclock hscan hsound' hedge httl hkept)⟩
  | get key get_stale =>
    cases hkey
    cases get_stale with
    | true => exact ⟨_, _, rfl, get_told true hclock h hsound hedge⟩
    | false => exact ⟨_, _, rfl, .of_scan h hclock hsound (get_told false hclock hscan hsound' hedge)⟩
  | incr key value init =>
    cases hkey
    have hclear : init ≠ none → Inserts now ((d.scanned z now).entry key) → ¬ (d.scanned z now).Clashes z key := by
      cases init with
      | none => exact fun hinit => absurd rfl hinit
      | some i => exact fun _ => hop
    exact ⟨_, _, rfl, .of_scan h hclock hsound (incr_told hclock hscan hsound' hedge hclear)⟩
  | push key left value =>
    cases hkey
    cases hpushable : value.pushable with
    | false =>
      refine ⟨.pushed .badType, d, by rw [Op.run, Shctx.push, if_pos hpushable], ?_⟩
      exact (After.self h).told hsound (fun n hn => hsound n (mem_of_entry hn)) hpushable (current_same rfl)
    | true =>
      obtain ⟨hstale, hlen⟩ := hop hpushable
      rw [Op.found, if_pos hpushable] at hedge
      exact ⟨_, _, rfl, .of_scan h hclock hsound (push_told hclock hscan hsound' hedge hpushable hstale hlen)⟩
  | pop key left =>
    cases hkey
    obtain ⟨r, d', hrun, htold⟩ := pop_told slab key left hclock hscan hsound' hedge
    exact ⟨_, d', by rw [Op.run, hrun]; rfl, .of_scan h hclock hsound htold⟩
  | llen key =>
    cases hkey
    exact ⟨_, _, rfl, .of_scan h hclock hsound (llen_told hclock hscan hsound' hedge)⟩
  | flushAll => cases hkey
  | flushExpired attempts => cases hkey
  | getKeys attempts => cases hkey

/-- What every state of a careful run is. -/
structure Recall.Inv (z : Zone) (x : Recall N) : Prop where
  rep : Rep z x.state.dict
  sound : ∀ n ∈ x.state.dict.queue, n.Sound x.state.now
  reads : ∀ key, current x.state.now (x.state.dict.record key) = current x.state.now (x.memory key)

/-- What has expired stays expired. -/
theorem current_later {later : Nat} (hle : now ≤ later) (m : Option (Record N)) :
    current later (current now m) = current later m := by
  unfold current
  rw [filter_filter]
  congr 1
  funext r
  have himp : r.expires = 0 ∨ later < r.expires → r.expires = 0 ∨ now < r.expires := by omega
  by_cases hr : r.expires = 0 ∨ later < r.expires
  · simp [hr, himp hr]
  · simp [hr]

/-- What another key reads, when its entry stays or goes. -/
theorem remember_other {op : Op N} {memory : Bytes → Option (Record N)} (hop : op ≠ .flushAll)
    (hkey : op.key? ≠ some key) (hreads : current now (d.record key) = current now (memory key))
    (hentry : d'.entry key = d.entry key ∨ d'.entry key = none) :
    current now (d'.record key) = current now (remember now op r d d' memory key) := by
  have hremember : remember now op r d d' memory key =
      if (current now (d.record key)).isSome ∧ (d'.entry key).isNone then none else memory key := by
    cases op with
    | flushAll => exact absurd rfl hop
    | store | get | incr | push | pop | llen | flushExpired | getKeys => simp only [remember, if_neg hkey]
  rw [hremember]
  split
  · next hgone =>
    rw [Shctx.record, isNone_iff_eq_none.mp hgone.2]
    rfl
  · next hstays =>
    rw [← hreads]
    unfold Shctx.record at hstays ⊢
    rcases hentry with hsame | hnone
    · rw [hsame]
    · rw [hnone] at hstays ⊢
      have hold : ¬ (current now ((d.entry key).map Node.record)).isSome = true := fun hsome => hstays ⟨hsome, rfl⟩
      exact (not_isSome_iff_eq_none.mp hold).symm

/-- Keys whose time has come are the only ones that `flush_expired` takes. -/
theorem current_flushed (h : Rep z d) (hflushed : Flushed z now d d') :
    current now (d'.record key) = current now (d.record key) ∧
      (d'.entry key = d.entry key ∨ d'.entry key = none) := by
  obtain ⟨hrep, hkept, hgone⟩ := hflushed
  unfold Shctx.record
  cases hafter : d'.entry key with
  | some m =>
    have hm := h.entry_of_mem (hkept m (mem_of_entry hafter))
    rw [key_of_entry hafter] at hm
    rw [Shctx.entry, hm]
    exact ⟨rfl, .inl rfl⟩
  | none =>
    refine ⟨?_, .inr rfl⟩
    cases hbefore : d.entry key with
    | none => rfl
    | some n =>
      rcases hgone n (mem_of_entry hbefore) with hn | hexp
      · exact absurd (key_of_entry hbefore) (entry_eq_none.mp hafter n hn)
      · exact (current_expired hexp).symm

/-- What one operation is to do. -/
structure Stepped [Add N] (z : Zone) (now : Nat) (slab : Slab) (op : Op N) (memory : Bytes → Option (Record N))
    (d : Shctx N) (r : Result N) (d' : Shctx N) : Prop where
  rep : Rep z d'
  sound : ∀ n ∈ d'.queue, n.Sound now
  replies : ∀ key, op.key? = some key → Replies slab op r (current now (memory key))
  reads : ∀ key, current now (d'.record key) = current now (remember now op r d d' memory key)
  others : ∀ key, op.key? = some key →
    Dropped (fun n => n.expires ≠ 0 ∧ n.expires ≤ now ∨ slab 0 = none ∧ op.evicts = true)
      (others Node.key key d.queue) (others Node.key key d'.queue)
  flushed : ∀ attempts, op = .flushExpired attempts → ∀ key, current now (d'.record key) = current now (d.record key)

variable {memory : Bytes → Option (Record N)}

theorem Told.stepped [Add N] {op : Op N} (h : Told z now slab op key d r d')
    (hkey : op.key? = some key)
    (hreads : ∀ key, current now (d.record key) = current now (memory key)) :
    Stepped z now slab op memory d r d' := by
  obtain ⟨hrep, hsound, hreplies, hown, hothers⟩ := h
  have hop : op ≠ .flushAll := fun hop => by
    rw [hop] at hkey
    cases hkey
  rw [hreads] at hreplies hown
  refine ⟨hrep, hsound, fun key' hkey' => ?_, fun key' => ?_, fun key' hkey' => ?_, fun attempts hop => ?_⟩
  · rw [hkey] at hkey'
    cases hkey'
    exact hreplies
  · by_cases hsame : key' = key
    · have hremember : remember now op r d d' memory key = remembered now op r (current now (memory key)) := by
        cases op with
        | flushAll => exact absurd rfl hop
        | store | get | incr | push | pop | llen | flushExpired | getKeys => simp only [remember, if_pos hkey]
      rw [hsame, hremember]
      exact hown
    · refine remember_other hop (fun hkey' => hsame (some_inj.mp (hkey'.symm.trans hkey))) (hreads key') ?_
      have hentry := hothers.entry Node.key key'
      rw [entry_others_of_ne hsame, entry_others_of_ne hsame] at hentry
      exact hentry.imp_right fun hnone => hnone.1
  · rw [hkey] at hkey'
    cases hkey'
    exact hothers
  · rw [hop] at hkey
    cases hkey

theorem flushAll_stepped [Add N] (hclock : Clock now) (h : Rep z d) (hsound : ∀ n ∈ d.queue, n.Sound now) :
    Stepped z now slab .flushAll memory d .flushed (d.flushAll z now) := by
  obtain ⟨hrep, hdropped⟩ := flushAll_outcome now h
  have hone : ∀ n ∈ (d.flushAll z now).queue, n.expires = 1 := by
    intro n hn
    obtain ⟨m, -, rfl⟩ := List.mem_map.mp (hdropped.mem hn)
    rfl
  have hfine := flushAll_fine slab now h fun n hn => (hsound n hn).1
  refine ⟨hrep, fun n hn => (hfine.good n hn).sound (Nat.le_of_eq (hone n hn)), fun key hkey => (by cases hkey), ?_,
    fun key hkey => (by cases hkey), fun attempts hop => (by cases hop)⟩
  intro key
  unfold Shctx.record remember
  cases hentry : (d.flushAll z now).entry key with
  | none => rfl
  | some n =>
    have hexpires := hone n (mem_of_entry hentry)
    refine current_expired ?_
    show n.expires ≠ 0 ∧ n.expires ≤ now
    have hpos := hclock.1
    omega

theorem flushExpired_stepped [Add N] {attempts : Int} (h : Rep z d) (hsound : ∀ n ∈ d.queue, n.Sound now)
    (hreads : ∀ key, current now (d.record key) = current now (memory key)) :
    Stepped z now slab (.flushExpired attempts) memory d (.freed (d.flushExpired z now attempts).1)
      (d.flushExpired z now attempts).2 := by
  have hflushed := flushExpired_outcome now h attempts
  refine ⟨hflushed.rep, fun n hn => hsound n (hflushed.kept n hn), fun key hkey => (by cases hkey), fun key => ?_,
    fun key hkey => (by cases hkey), fun _ _ key => (current_flushed h hflushed).1⟩
  exact remember_other (fun hop => by cases hop) (some_ne_none key).symm (hreads key)
    (current_flushed h hflushed).2

theorem getKeys_stepped [Add N] {attempts : Int} (h : Rep z d) (hsound : ∀ n ∈ d.queue, n.Sound now)
    (hreads : ∀ key, current now (d.record key) = current now (memory key)) :
    Stepped z now slab (.getKeys attempts) memory d (.keys (d.getKeys now attempts)) d :=
  ⟨h, hsound, fun key hkey => (by cases hkey),
    fun key => remember_other (fun hop => by cases hop) (some_ne_none key).symm (hreads key) (.inl rfl),
    fun key hkey => (by cases hkey),
    fun attempts hop => (by cases hop)⟩

theorem run_stepped (slab : Slab) [Add N] {op : Op N} (hclock : Clock now) (h : Rep z d)
    (hsound : ∀ n ∈ d.queue, n.Sound now)
    (hreads : ∀ key, current now (d.record key) = current now (memory key)) (hop : CarefulOp z now d op)
    (hedge : ∀ n ∈ op.found z now d, n.expires ≠ now)
    (hstore : ∀ o item, op = .store o item → (∀ ttl ∈ item.ttl, ttl < 2 ^ 63) ∧
    ¬ Refused z now slab o item (d.scanned z now)) :
    ∃ r d', op.run z now slab d = some (r, d') ∧ Stepped z now slab op memory d r d' := by
  cases hkey : op.key? with
  | some key =>
    obtain ⟨r, d', hrun, htold⟩ := run_told slab hclock h hsound hkey hop hedge hstore
    exact ⟨r, d', hrun, htold.stepped hkey hreads⟩
  | none =>
    cases op with
    | flushAll => exact ⟨_, _, rfl, flushAll_stepped hclock h hsound⟩
    | flushExpired attempts => exact ⟨_, _, rfl, flushExpired_stepped h hsound hreads⟩
    | getKeys attempts => exact ⟨_, _, rfl, getKeys_stepped h hsound hreads⟩
    | store | get | incr | push | pop | llen => cases hkey

theorem Recall.Inv.step [Add N] {x : Recall N} {e : Event N} (h : x.Inv z) (hcareful : x.Careful z e) :
    ∃ x', recallStep z x e = some x' ∧ x.Right z e x' ∧ x'.Inv z := by
  obtain ⟨hrep, hsound, hreads⟩ := h
  obtain ⟨hclock, hop, hedge, hstore⟩ := hcareful
  have hle : x.state.now ≤ x.state.now + e.elapsed := Nat.le_add_right ..
  have hlater : ∀ n ∈ x.state.dict.queue, n.Sound (x.state.now + e.elapsed) := fun n hn =>
    ⟨(hsound n hn).1, Nat.lt_of_lt_of_le (hsound n hn).2 (Nat.add_le_add_right hle _)⟩
  have hreads' : ∀ key, current (x.state.now + e.elapsed) (x.state.dict.record key) =
      current (x.state.now + e.elapsed) (x.memory key) := by
    intro key
    rw [← current_later hle, hreads, current_later hle]
  obtain ⟨r, d', hrun, hstepped⟩ := run_stepped e.slab hclock hrep hlater hreads' hop hedge
    fun op item heq => by rw [heq] at hstore; exact hstore
  have hresult : stepResult z x.state e = some (r, { dict := d', now := x.state.now + e.elapsed }) := by
    rw [stepResult, hrun]
    rfl
  refine ⟨{ state := { dict := d', now := x.state.now + e.elapsed }, memory := _ }, by rw [recallStep, hresult]; rfl, ?_, ?_⟩
  · exact ⟨hstepped.rep, ⟨r, hresult, hstepped.replies⟩, hstepped.reads, hstepped.others, hstepped.flushed⟩
  · exact ⟨hstepped.rep, hstepped.sound, hstepped.reads⟩

/-- A new dictionary, with nothing to remember. -/
def Recall.init (node : Nat → Node N) (now : Nat) : Recall N :=
  { state := { dict := .init node, now }, memory := fun _ => none }

/-- **In every careful run a dictionary is a map that forgets only what expires
and what makes room, and its tree and queue are in step.** -/
theorem recall_right [Add N] (z : Zone) (node : Nat → Node N) (now : Nat) (events : List (Event N))
    (h : Guarded (recallStep z) (Recall.Careful z) (Recall.init node now) events) :
    Goes (recallStep z) (Recall.Right z) (Recall.init node now) events :=
  goes_of_guarded (fun _ _ => Recall.Inv.step) ⟨rep_init z node, fun n hn => (by cases hn), fun _ => rfl⟩ h

def setFor (key : Bytes) (n : Int) (ttl : Option Nat) : Op Int :=
  .store { add := false, replace := false, safe_store := false }
    { key, value := some (.number n), ttl, user_flags := 7 }

/-- A run with a value that expires, two keys that are prefixes of one another,
and a list. -/
def setsAndGets : List (Event Int) :=
  [setFor [97] 1 (some 5), setFor [97, 98] 2 none, .get [97] false, .incr [97, 98] 3 none,
    .push [99] true (.number 4),
    .get [97, 98] false, .get [97] false, .incr [97] 1 (some 5), .pop [99] true, .flushAll, .get [97] false].map soon

theorem recall_right_setsAndGets :
    Goes (recallStep plainZone) (Recall.Right plainZone) (Recall.init (fun _ => blankNode) 1) setsAndGets :=
  recall_right plainZone (fun _ => blankNode) 1 setsAndGets (by decide +kernel)

/-- A string is set over a number, and there is no memory for it. -/
def setWithoutMemory : Event Int :=
  { elapsed := 1, slab := fun _ => none
    op := .store { add := false, replace := false, safe_store := false }
      { key := [97], value := some (.string [120]), ttl := none, user_flags := 0 } }

/-- The store fails, and what was stored before is gone. -/
theorem failed_set_forgets :
    ¬ Goes (recallStep plainZone) (Recall.Right plainZone) (Recall.init (fun _ => blankNode) 1)
      ([soon (set [97] 1)] ++ [setWithoutMemory]) := by
  intro h
  obtain ⟨x, x', hrun, hright⟩ := h.last
  have hforgot : (run (recallStep plainZone) (Recall.init (fun _ => blankNode) 1)
      ([soon (set [97] 1)] ++ [setWithoutMemory])).all
        (fun x => (current x.state.now (x.memory [97])).isSome &&
          (current x.state.now (x.state.dict.record [97])).isNone)
      = true := by
    decide +kernel
  rw [hrun, all_some, hright.reads, Bool.and_eq_true] at hforgot
  obtain ⟨hsome, hnone⟩ := hforgot
  rw [isNone_iff_eq_none.mp hnone] at hsome
  cases hsome

end OpenResty.NgxLua.Shdict
