/-
The lists of a shared dictionary as double-ended queues: in every run, what
the count of a node says of its list, and what pushes, pops and counts give,
against the values pushed and not yet popped.
-/
import OpenResty.Lib.Transition
import OpenResty.NgxLua.ShdictSteps

namespace OpenResty.NgxLua.Shdict

open Lib Lib.Transition Option Function List

variable {N : Type}

/-! ## Lists and their account -/

def Data.elems : Data N → List (Value N)
  | .scalar _ => []
  | .list elems => elems

/-- The list of an entry. A list expires through `flush_all` only. -/
def listOf : Option (Node N) → List (Value N)
  | none => []
  | some n => if n.expires = 0 then n.data.elems else []

def Shctx.list (d : Shctx N) (key : Bytes) : List (Value N) := listOf (d.entry key)

/-- Every node of list type has the length of its list, which is not empty. -/
def Shctx.Counts (d : Shctx N) : Prop :=
  ∀ n ∈ d.queue, ∀ elems, n.data = .list elems → n.value_len = elems.length ∧ elems ≠ []

/-- The values pushed and not yet popped, when `op` gave `r`. -/
def moved (op : Op N) (r : Result N) (q : Bytes → List (Value N)) : Bytes → List (Value N) :=
  match op, r with
  | .push key left value, .pushed (.len _) => update q key (inserted left value (q key))
  | .pop key left, .popped (.value _) => update q key (if left then (q key).tail else (q key).dropLast)
  | _, _ => q

/-- What pushes, pops and counts give for such values. -/
def Answers (slab : Slab) (op : Op N) (r : Result N) (q : Bytes → List (Value N)) : Prop :=
  match op, r with
  | .push key _ value, .pushed p =>
    match p with
    | .len n => value.pushable = true ∧ n = (q key).length + 1
    | .badType => value.pushable = false
    | .notList => q key = []
    | .noMemory => slab 0 = none ∨ slab 1 = none
  | .pop key left, .popped p =>
    match p with
    | .value v => ∃ elems, q key = inserted left v elems
    | .missing | .notList => q key = []
    | .badLength | .badType => False
  | .llen key, .counted c =>
    match c with
    | .len n => n = (q key).length
    | .notList => q key = []
  | _, _ => True

/-- Ways for a whole list to go: its key is stored to, everything is flushed,
or it makes room for another entry. -/
def Drops (slab : Slab) (op : Op N) (key : Bytes) : Prop :=
  match op with
  | .store _ item => item.key = key ∨ slab 0 = none
  | .incr _ _ _ => slab 0 = none
  | .flushAll => True
  | _ => False

/-- A state with the account of what was pushed and not popped under each key
since its list was dropped. -/
structure Deques (N : Type) where
  state : State N
  deques : Bytes → List (Value N)

def dequeStep [Add N] (z : Zone) (x : Deques N) (e : Event N) : Option (Deques N) :=
  (stepResult z x.state e).map fun (r, state) =>
    { state, deques := fun key => if state.dict.list key = [] then [] else moved e.op r x.deques key }

/-- What a step is to do: nodes count their lists, the answer is that of the
queues, every list is what its queue says, and is removed with its last element
or for a reason. -/
structure Deques.Right [Add N] (z : Zone) (x : Deques N) (e : Event N) (x' : Deques N) : Prop where
  counts : x'.state.dict.Counts
  answers : ∃ r, stepResult z x.state e = some (r, x'.state) ∧ Answers e.slab e.op r x.deques ∧
    (∀ key, x'.state.dict.list key = [] → moved e.op r x.deques key = [] ∨ Drops e.slab e.op key) ∧
    ∀ key left v, e.op = .pop key left → r = .popped (.value v) →
      (x'.state.dict.entry key = none ↔ moved e.op r x.deques key = [])
  lists : ∀ key, x'.state.dict.list key = x'.deques key

/-- The clock of a careful run, in milliseconds. -/
def Clock (now : Nat) : Prop := 1 < now ∧ now < 2 ^ 63

/-- No push finds an expired list in its key's place, no list gets 2^32
elements, and no increment makes a node beside another key of its hash. -/
def CarefulOp (z : Zone) (now : Nat) (d : Shctx N) : Op N → Prop
  | .push key _ value =>
    value.pushable = true → ¬ StaleList now ((d.scanned z now).entry key) ∧
      (listOf ((d.scanned z now).entry key)).length + 1 < 2 ^ 32
  | .incr key _ (some _) => Inserts now ((d.scanned z now).entry key) → ¬ (d.scanned z now).Clashes z key
  | _ => True

instance (z : Zone) (now : Nat) (d : Shctx N) : (op : Op N) → Decidable (CarefulOp z now d op)
  | .push key _ value =>
    inferInstanceAs (Decidable (value.pushable = true → ¬ StaleList now ((d.scanned z now).entry key) ∧
      (listOf ((d.scanned z now).entry key)).length + 1 < 2 ^ 32))
  | .incr key _ (some _) =>
    inferInstanceAs (Decidable (Inserts now ((d.scanned z now).entry key) → ¬ (d.scanned z now).Clashes z key))
  | .incr _ _ none | .store _ _ | .get _ _ | .pop _ _ | .llen _ | .flushAll | .flushExpired _ | .getKeys _ =>
    inferInstanceAs (Decidable True)

def Deques.Careful (z : Zone) (x : Deques N) (e : Event N) : Prop :=
  Clock (x.state.now + e.elapsed) ∧ CarefulOp z (x.state.now + e.elapsed) x.state.dict e.op

instance (z : Zone) (x : Deques N) (e : Event N) : Decidable (x.Careful z e) :=
  inferInstanceAs (Decidable ((1 < x.state.now + e.elapsed ∧ x.state.now + e.elapsed < 2 ^ 63) ∧ CarefulOp ..))

/-! ## One operation -/

theorem int64_of_bounds {n : Int} (hlow : -2 ^ 63 ≤ n) (hhigh : n < 2 ^ 63) : int64 n = n := by
  unfold int64
  rw [Int.emod_eq_of_lt (by omega) (by omega)]
  omega

/-- A node has its size, and a list does not expire at a time of its own. -/
def Node.Good (n : Node N) : Prop := n.Sized ∧ (n.data.isList = true → n.expires ≤ 1)

variable {z : Zone} {d d' : Shctx N} {key : Bytes} {now : Nat} {slab : Slab} {n : Node N} {o : Option (Node N)}
  {elems : List (Value N)}

theorem Node.Good.live (h : n.Good) (hclock : Clock now) (hlive : ¬ n.expired now) (hdata : n.data = .list elems) :
    n.expires = 0 := by
  have hle := h.2 (by rw [hdata]; rfl)
  by_contra hne
  have hone : n.expires = 1 := by omega
  obtain ⟨hpos, hlt⟩ := hclock
  refine hlive ⟨hne, ?_⟩
  rw [Node.ms, hone, int64_of_bounds (by omega) (by omega)]
  omega

theorem Node.Good.list (h : n.Good) (hdata : n.data = .list elems) :
    n.value_len = elems.length ∧ elems ≠ [] ∧ ∀ v ∈ elems, v.pushable = true := by
  have hsized := h.1
  rw [Node.Sized, hdata] at hsized
  exact hsized

theorem Node.Good.isList (h : n.Good) (hdata : n.data.isList = true) :
    ∃ elems, n.data = .list elems ∧ n.value_len = elems.length ∧ elems ≠ [] := by
  cases hlist : n.data with
  | scalar v =>
    rw [hlist] at hdata
    cases hdata
  | list elems =>
    obtain ⟨hlen, hne, -⟩ := h.list hlist
    exact ⟨elems, rfl, hlen, hne⟩

theorem listOf_live (h : n.Good) (hclock : Clock now) (hlive : ¬ n.expired now) (hdata : n.data = .list elems) :
    listOf (some n) = elems := by
  rw [listOf, if_pos (h.live hclock hlive hdata), hdata, Data.elems]

theorem listOf_scalar (hdata : n.data.isList = false) : listOf (some n) = [] := by
  rw [listOf]
  cases h : n.data with
  | scalar v => exact ite_self _
  | list elems =>
    rw [h] at hdata
    cases hdata

theorem listOf_dead (h : ¬ Live now o) : listOf o = [] := by
  cases o with
  | none => rfl
  | some n =>
    have hexp : n.expired now := Classical.not_not.mp fun hlive => h ((live_iff rfl).mpr hlive)
    rw [listOf, if_neg hexp.1]

/-- The scan takes no list. -/
theorem list_scan (h : Rep z d) (now : Nat) : (d.scanned z now).list = d.list := by
  funext key
  unfold Shctx.list
  rcases (h.scan now).2.entry Node.key key with hsame | ⟨hnone, n, hn, hgone⟩
  · rw [Shctx.entry, hsame]
  · rw [Shctx.entry, hnone, Shctx.entry, hn, listOf, listOf, if_neg hgone.1]

/-- What one operation is to do to the lists. -/
structure Fine (z : Zone) (slab : Slab) (op : Op N) (q : Bytes → List (Value N)) (r : Result N)
    (d' : Shctx N) : Prop where
  rep : Rep z d'
  good : ∀ n ∈ d'.queue, n.Good
  answers : Answers slab op r q
  lists : ∀ key, d'.list key = moved op r q key ∨ d'.list key = [] ∧ Drops slab op key
  removed : ∀ key left v, op = .pop key left → r = .popped (.value v) → (d'.entry key = none ↔ moved op r q key = [])

/-- An operation on one key: the other lists stay, or drop when memory is short. -/
theorem After.lists {short : Prop} {q : Bytes → List (Value N)} {P : Bytes → Prop} (h : After z short key d d' o)
    (hself : listOf o = q key ∨ listOf o = [] ∧ P key) (hothers : ∀ key', key' ≠ key → q key' = d.list key')
    (hshort : short → ∀ key', P key') : ∀ key', d'.list key' = q key' ∨ d'.list key' = [] ∧ P key' := by
  intro key'
  unfold Shctx.list at hothers ⊢
  by_cases hkey : key' = key
  · rw [hkey, h.entry]
    exact hself
  · rcases h.other hkey with hsame | ⟨hnone, hs⟩
    · rw [hsame]
      exact .inl (hothers key' hkey).symm
    · rw [hnone]
      exact .inr ⟨rfl, hshort hs key'⟩

theorem store_fine (slab : Slab) (op : StoreOp) (item : Item N) (h : Rep z (d.scanned z now))
    (hgood : ∀ n ∈ (d.scanned z now).queue, n.Good) :
    Fine z slab (.store op item) (d.scanned z now).list (.stored (d.store z now slab op item).1)
      (d.store z now slab op item).2 := by
  obtain ⟨o, hafter, hout⟩ := store_outcome slab op item h
  refine ⟨hafter.rep, ?_, trivial, ?_, fun _ _ _ hop => by cases hop⟩
  · refine hafter.forall (fun n ho => ?_) hgood
    generalize (d.store z now slab op item).1 = r at hout
    cases hout with
    | «exists» => exact hgood n (mem_of_entry ho)
    | notFound => exact hgood n (mem_of_entry ho)
    | deleted => cases ho
    | noMemory => cases ho
    | stored =>
      cases ho
      exact ⟨rfl, fun hlist => by cases hlist⟩
  · refine hafter.lists ?_ (fun _ _ => rfl) fun hshort _ => .inr hshort
    generalize (d.store z now slab op item).1 = r at hout
    cases hout with
    | «exists» => exact .inl rfl
    | notFound => exact .inl rfl
    | deleted => exact .inr ⟨rfl, .inl rfl⟩
    | noMemory => exact .inr ⟨rfl, .inl rfl⟩
    | stored => exact .inr ⟨listOf_scalar rfl, .inl rfl⟩

theorem get_fine (slab : Slab) (key : Bytes) (get_stale : Bool) (h : Rep z (d.lookedUp z now get_stale))
    (hgood : ∀ n ∈ (d.lookedUp z now get_stale).queue, n.Good) :
    Fine z slab (.get key get_stale) (d.lookedUp z now get_stale).list (.fetched (d.get z now key get_stale).1)
      (d.get z now key get_stale).2 := by
  obtain ⟨hafter, -⟩ := get_outcome False key h
  refine ⟨hafter.rep, ?_, trivial, ?_, fun _ _ _ hop => by cases hop⟩
  · exact hafter.forall (fun n ho => hgood n (mem_of_entry ho)) hgood
  · exact hafter.lists (.inl rfl) (fun _ _ => rfl) fun hfalse _ => hfalse.elim

theorem incr_fine (slab : Slab) (value : N) [Add N] {init : Option N} (h : Rep z (d.scanned z now))
    (hgood : ∀ n ∈ (d.scanned z now).queue, n.Good)
    (hclear : init ≠ none → Inserts now ((d.scanned z now).entry key) → ¬ (d.scanned z now).Clashes z key) :
    Fine z slab (.incr key value init) (d.scanned z now).list (.incremented (d.incr z now slab key value init).1)
      (d.incr z now slab key value init).2 := by
  obtain ⟨o, hafter, hout⟩ := incr_outcome slab value h hclear
  refine ⟨hafter.rep, ?_, trivial, ?_, fun _ _ _ hop => by cases hop⟩
  · refine hafter.forall (fun n ho => ?_) hgood
    generalize (d.incr z now slab key value init).1 = r at hout
    cases hout with
    | notFound => exact hgood n (mem_of_entry ho)
    | notNumber hentry => exact hgood n (mem_of_entry (hentry.trans ho))
    | noMemory => cases ho
    | created =>
      cases ho
      exact ⟨rfl, fun hlist => by cases hlist⟩
    | added hentry _ hdata =>
      have hn := (hgood _ (mem_of_entry hentry)).1
      rw [Node.Sized, hdata] at hn
      cases ho
      exact ⟨hn, fun hlist => by cases hlist⟩
  · refine hafter.lists ?_ (fun _ _ => rfl) fun hshort _ => hshort
    generalize (d.incr z now slab key value init).1 = r at hout
    cases hout with
    | notFound => exact .inl rfl
    | notNumber hentry => exact .inl (congrArg listOf hentry.symm)
    | created hdead => exact .inl ((listOf_scalar rfl).trans (listOf_dead hdead).symm)
    | noMemory _ _ hslab => exact .inr ⟨rfl, hslab⟩
    | added hentry _ hdata =>
      have hnil : (d.scanned z now).list key = [] := by
        rw [Shctx.list, hentry, listOf_scalar (by rw [hdata]; rfl)]
      exact .inl ((listOf_scalar rfl).trans hnil.symm)

theorem push_fine (slab : Slab) (left : Bool) {value : Value N} (hclock : Clock now) (h : Rep z (d.scanned z now))
    (hgood : ∀ n ∈ (d.scanned z now).queue, n.Good) (hpushable : value.pushable = true)
    (hstale : ¬ StaleList now ((d.scanned z now).entry key))
    (hlen : (listOf ((d.scanned z now).entry key)).length + 1 < 2 ^ 32) :
    Fine z slab (.push key left value) (d.scanned z now).list (.pushed (d.push z now slab key left value).1)
      (d.push z now slab key left value).2 := by
  obtain ⟨o, hafter, hout⟩ := push_outcome False slab left h hpushable hstale
  generalize (d.push z now slab key left value).1 = r at hout ⊢
  generalize d.scanned z now = d1 at h hgood hstale hlen hafter hout ⊢
  have hrest : listOf o = moved (.push key left value) (.pushed r) d1.list key →
      Answers slab (.push key left value) (.pushed r) d1.list → (∀ n, o = some n → n.Good) →
      Fine z slab (.push key left value) d1.list (.pushed r) (d.push z now slab key left value).2 := by
    intro hself hanswers hnode
    refine ⟨hafter.rep, hafter.forall hnode hgood, hanswers, ?_, fun _ _ _ hop => by cases hop⟩
    refine hafter.lists (.inl hself) (fun key' hne => ?_) fun hfalse _ => hfalse.elim
    cases r with
    | len n => exact update_of_ne hne ..
    | badType => rfl
    | notList => rfl
    | noMemory => rfl
  cases hout with
  | notList hentry hlive hdata =>
    have hnil : d1.list key = [] := by rw [Shctx.list, hentry, listOf_scalar hdata]
    refine hrest ((listOf_scalar hdata).trans hnil.symm) hnil fun n ho => ?_
    exact hgood n (mem_of_entry (hentry.trans ho))
  | @pushed n elems hentry hlive hdata =>
    have hn := hgood _ (mem_of_entry hentry)
    have hlist : d1.list key = elems := by rw [Shctx.list, hentry, listOf_live hn hclock hlive hdata]
    have hzero := hn.live hclock hlive hdata
    obtain ⟨hcount, -, hall⟩ := hn.list hdata
    rw [hentry, listOf_live hn hclock hlive hdata] at hlen
    have hmod : (n.value_len + 1) % 2 ^ 32 = elems.length + 1 := by
      rw [hcount, Nat.mod_eq_of_lt hlen]
    rw [hmod] at hrest ⊢
    refine hrest ?_ ⟨hpushable, by rw [hlist]⟩ fun m hm => ?_
    · rw [listOf, if_pos hzero, moved, update_self, hlist]
      rfl
    · cases hm
      refine ⟨⟨(length_inserted ..).symm, ?_, fun v hv => ?_⟩, fun _ => by rw [hzero]; exact Nat.zero_le 1⟩
      · exact ne_nil_of_mem (mem_inserted.mpr (.inl rfl))
      · exact (mem_inserted.mp hv).elim (fun heq => heq ▸ hpushable) (hall v)
  | @started n hdead hone hzero hdata =>
    have hnil : d1.list key = [] := listOf_dead hdead
    refine hrest ?_ ⟨hpushable, by rw [hnil]; rfl⟩ fun m hm => ?_
    · rw [listOf, if_pos hzero, moved, update_self, hnil, hdata]
      cases left
      · rfl
      · rfl
    · cases hm
      refine ⟨?_, fun _ => by rw [hzero]; exact Nat.zero_le 1⟩
      rw [Node.Sized, hdata, hone]
      exact ⟨rfl, cons_ne_nil _ _, fun v hv => mem_singleton.mp hv ▸ hpushable⟩
  | @kept n hentry hlive hdata hslab =>
    obtain ⟨elems, -, hlen, hnil⟩ := (hgood _ (mem_of_entry hentry)).isList hdata
    have hne : n.value_len ≠ 0 := by
      rw [hlen]
      exact Nat.ne_of_gt (length_pos_iff.mpr hnil)
    rw [if_neg hne] at hrest
    refine hrest (congrArg listOf hentry.symm) (.inr hslab) fun m hm => ?_
    exact hgood m (mem_of_entry (hentry.trans hm))
  | noMemory hdead hslab => exact hrest (listOf_dead hdead).symm hslab fun n hn => by cases hn

/-- Under a live node that is no list there are no values. -/
theorem list_scalar (hentry : d.entry key = some n) (hdata : n.data.isList = false) : d.list key = [] := by
  rw [Shctx.list, hentry, listOf_scalar hdata]

theorem pop_fine (slab : Slab) (key : Bytes) (left : Bool) (hclock : Clock now) (h : Rep z (d.scanned z now))
    (hgood : ∀ n ∈ (d.scanned z now).queue, n.Good) :
    ∃ r d', d.pop z now key left = some (r, d') ∧
      Fine z slab (.pop key left) (d.scanned z now).list (.popped r) d' := by
  have hsized : ∀ n, (d.scanned z now).entry key = some n → n.Sized := fun n hn => (hgood n (mem_of_entry hn)).1
  obtain ⟨r, d', o, hrun, hafter, hout⟩ := pop_outcome False left h hsized
  refine ⟨r, d', hrun, ?_⟩
  generalize d.scanned z now = d1 at h hgood hafter hout ⊢
  cases hout with
  | missing hdead =>
    refine ⟨hafter.rep, hafter.forall (fun n ho => hgood n (mem_of_entry ho)) hgood, listOf_dead hdead, ?_, ?_⟩
    · exact hafter.lists (.inl rfl) (fun _ _ => rfl) fun hfalse _ => hfalse.elim
    · exact fun _ _ _ _ hr => by cases hr
  | notList hentry hlive hdata =>
    refine ⟨hafter.rep, ?_, list_scalar hentry hdata, ?_, fun _ _ _ _ hr => by cases hr⟩
    · exact hafter.forall (fun n ho => hgood n (mem_of_entry (hentry.trans ho))) hgood
    · exact hafter.lists (.inl (congrArg listOf hentry.symm)) (fun _ _ => rfl) fun hfalse _ => hfalse.elim
  | @popped n v elems hentry hlive hdata =>
    have hn := hgood n (mem_of_entry hentry)
    have hlist : d1.list key = inserted left v elems := by
      rw [Shctx.list, hentry, listOf_live hn hclock hlive hdata]
    have hzero := hn.live hclock hlive hdata
    obtain ⟨hcount, -, hall⟩ := hn.list hdata
    have hmoved : moved (.pop key left) (.popped (.value v)) d1.list key = elems := by
      rw [moved, update_self, hlist]
      cases left
      · exact dropLast_concat
      · rfl
    refine ⟨hafter.rep, hafter.forall (fun m hm => ?_) hgood, ⟨elems, hlist⟩, ?_, ?_⟩
    · split at hm
      · cases hm
      · next hne =>
        cases hm
        refine ⟨⟨?_, hne, fun w hw => hall w (mem_inserted.mpr (.inr hw))⟩,
          fun _ => by rw [hzero]; exact Nat.zero_le 1⟩
        rw [hcount, length_inserted]
        rfl
    · refine hafter.lists (.inl ?_) (fun key' hne => update_of_ne hne ..) fun hfalse _ => hfalse.elim
      rw [hmoved]
      split
      · next hnil => exact hnil.symm
      · rw [listOf, if_pos hzero]
        rfl
    · intro key' left' v' hop hr
      cases hop
      cases hr
      rw [hmoved, hafter.entry]
      by_cases hnil : elems = []
      · rw [if_pos hnil]
        exact iff_of_true rfl hnil
      · rw [if_neg hnil]
        exact iff_of_false (some_ne_none _) hnil

theorem llen_fine (slab : Slab) (key : Bytes) (hclock : Clock now) (h : Rep z (d.scanned z now))
    (hgood : ∀ n ∈ (d.scanned z now).queue, n.Good) :
    Fine z slab (.llen key) (d.scanned z now).list (.counted (d.llen z now key).1) (d.llen z now key).2 := by
  obtain ⟨hafter, hcounted⟩ := llen_outcome False key h
  refine ⟨hafter.rep, ?_, ?_, ?_, fun _ _ _ hop => by cases hop⟩
  · exact hafter.forall (fun n ho => hgood n (mem_of_entry ho)) hgood
  · rw [hcounted]
    cases hentry : (d.scanned z now).entry key with
    | none =>
      have hnil : (d.scanned z now).list key = [] := by rw [Shctx.list, hentry, listOf]
      rw [counted, Answers, hnil]
      rfl
    | some n =>
      have hn := hgood n (mem_of_entry hentry)
      rw [counted]
      split
      · next hexp =>
        have hnil : (d.scanned z now).list key = [] := listOf_dead fun hlive => (live_iff hentry).mp hlive hexp
        rw [Answers, hnil]
        rfl
      · next hlive =>
        split
        · next hdata => exact list_scalar hentry hdata
        · next hdata =>
          obtain ⟨elems, hlist, hlen, -⟩ := hn.isList (Bool.not_eq_false _ ▸ hdata)
          rw [Answers, Shctx.list, hentry, listOf_live hn hclock hlive hlist]
          exact hlen
  · exact hafter.lists (.inl rfl) (fun _ _ => rfl) fun hfalse _ => hfalse.elim

theorem flushAll_fine (slab : Slab) (now : Nat) (h : Rep z d) (hgood : ∀ n ∈ d.queue, n.Good) :
    Fine z slab .flushAll d.list .flushed (d.flushAll z now) := by
  obtain ⟨hrep, hdropped⟩ := flushAll_outcome now h
  have hflushed : ∀ n ∈ (d.flushAll z now).queue, ∃ m ∈ d.queue, n = { m with expires := 1 } := by
    intro n hn
    obtain ⟨m, hm, heq⟩ := mem_map.mp (hdropped.mem hn)
    exact ⟨m, hm, heq.symm⟩
  refine ⟨hrep, fun n hn => ?_, trivial, fun key => .inr ⟨?_, trivial⟩, fun _ _ _ hop => by cases hop⟩
  · obtain ⟨m, hm, rfl⟩ := hflushed n hn
    exact ⟨(hgood m hm).1, fun _ => Nat.le_refl 1⟩
  · unfold Shctx.list
    cases hentry : (d.flushAll z now).entry key with
    | none => rfl
    | some n =>
      obtain ⟨m, hm, rfl⟩ := hflushed n (mem_of_entry hentry)
      rfl

theorem flushExpired_fine {attempts : Int} (h : Rep z d) (hgood : ∀ n ∈ d.queue, n.Good) :
    Fine z slab (.flushExpired attempts) d.list (.freed (d.flushExpired z now attempts).1)
      (d.flushExpired z now attempts).2 := by
  obtain ⟨hrep, hkept, hgone⟩ := flushExpired_outcome now h attempts
  refine ⟨hrep, fun n hn => hgood n (hkept n hn), trivial, fun key => .inl ?_, fun _ _ _ hop => by cases hop⟩
  unfold moved Shctx.list
  dsimp only
  cases hentry : d.entry key with
  | none =>
    have hnone : (d.flushExpired z now attempts).2.entry key = none :=
      entry_eq_none.mpr fun n hn => entry_eq_none.mp hentry n (hkept n hn)
    rw [hnone]
  | some n =>
    have hkey := key_of_entry hentry
    rcases hgone n (mem_of_entry hentry) with hn | ⟨hne, -⟩
    · have hsame := hrep.entry_of_mem hn
      rw [hkey] at hsame
      rw [Shctx.entry, hsame]
    · rw [listOf, if_neg hne]
      cases hafter : (d.flushExpired z now attempts).2.entry key with
      | none => rfl
      | some m =>
        have hm := h.entry_of_mem (hkept m (mem_of_entry hafter))
        rw [key_of_entry hafter] at hm
        obtain rfl : n = m := some_inj.mp (hentry.symm.trans hm)
        rw [listOf, if_neg hne]

/-! ## Runs -/

theorem run_fine (slab : Slab) [Add N] {op : Op N} (hclock : Clock now) (h : Rep z d) (hgood : ∀ n ∈ d.queue, n.Good)
    (hop : CarefulOp z now d op) : ∃ r d', op.run z now slab d = some (r, d') ∧ Fine z slab op d.list r d' := by
  obtain ⟨hscan, hdropped⟩ := h.scan now
  have hgood' : ∀ n ∈ (d.scanned z now).queue, n.Good := fun n hn => hgood n (hdropped.mem hn)
  have hlist := list_scan h now
  cases op with
  | store op item =>
    have hfine := store_fine slab op item hscan hgood'
    rw [hlist] at hfine
    exact ⟨_, _, rfl, hfine⟩
  | get key get_stale =>
    cases get_stale with
    | true => exact ⟨_, _, rfl, get_fine _ _ true h hgood⟩
    | false =>
      have hfine := get_fine slab key false hscan hgood'
      unfold Shctx.lookedUp at hfine
      rw [if_neg Bool.false_ne_true, hlist] at hfine
      exact ⟨_, _, rfl, hfine⟩
  | incr key value init =>
    have hclear : init ≠ none → Inserts now ((d.scanned z now).entry key) → ¬ (d.scanned z now).Clashes z key := by
      cases init with
      | none => exact fun hinit => absurd rfl hinit
      | some i => exact fun _ => hop
    have hfine := incr_fine slab value hscan hgood' hclear
    rw [hlist] at hfine
    exact ⟨_, _, rfl, hfine⟩
  | push key left value =>
    cases hpushable : value.pushable with
    | false =>
      refine ⟨.pushed .badType, d, ?_, h, hgood, hpushable, fun _ => .inl rfl, fun _ _ _ hop => by cases hop⟩
      rw [Op.run, Shctx.push, if_pos hpushable]
    | true =>
      obtain ⟨hstale, hlen⟩ := hop hpushable
      have hfine := push_fine slab left hclock hscan hgood' hpushable hstale hlen
      rw [hlist] at hfine
      exact ⟨_, _, rfl, hfine⟩
  | pop key left =>
    obtain ⟨r, d', hrun, hfine⟩ := pop_fine slab key left hclock hscan hgood'
    rw [hlist] at hfine
    exact ⟨_, d', by rw [Op.run, hrun]; rfl, hfine⟩
  | llen key =>
    have hfine := llen_fine slab key hclock hscan hgood'
    rw [hlist] at hfine
    exact ⟨_, _, rfl, hfine⟩
  | flushAll => exact ⟨_, _, rfl, flushAll_fine _ _ h hgood⟩
  | flushExpired attempts => exact ⟨_, _, rfl, flushExpired_fine h hgood⟩
  | getKeys attempts =>
    exact ⟨_, _, rfl, h, hgood, trivial, fun _ => .inl rfl, fun _ _ _ hop => by cases hop⟩

/-- What every state of a careful run is. -/
structure Deques.Inv (z : Zone) (x : Deques N) : Prop where
  rep : Rep z x.state.dict
  good : ∀ n ∈ x.state.dict.queue, n.Good
  lists : x.state.dict.list = x.deques

theorem Deques.Inv.step [Add N] {x : Deques N} {e : Event N} (h : x.Inv z) (hcareful : x.Careful z e) :
    ∃ x', dequeStep z x e = some x' ∧ x.Right z e x' ∧ x'.Inv z := by
  obtain ⟨hrep, hgood, hlists⟩ := h
  obtain ⟨hclock, hop⟩ := hcareful
  obtain ⟨r, d', hrun, hrep', hgood', hanswers, hmoved, hremoved⟩ :=
    run_fine e.slab hclock hrep hgood hop
  rw [hlists] at hanswers hmoved hremoved
  have hresult : stepResult z x.state e = some (r, { dict := d', now := x.state.now + e.elapsed }) := by
    rw [stepResult, hrun]
    rfl
  let deques := fun key => if d'.list key = [] then [] else moved e.op r x.deques key
  have hsame : d'.list = deques := by
    funext key
    dsimp only [deques]
    split
    · next hnil => exact hnil
    · next hne => exact (hmoved key).resolve_right fun hnil => hne hnil.1
  refine ⟨{ state := { dict := d', now := x.state.now + e.elapsed }, deques }, ?_, ?_, hrep', hgood', hsame⟩
  · rw [dequeStep, hresult]
    rfl
  · refine ⟨fun n hn elems hdata => ?_, ⟨r, hresult, hanswers, fun key hnil => ?_, ?_⟩, fun key => by rw [hsame]⟩
    · obtain ⟨hlen, hne, -⟩ := (hgood' n hn).list hdata
      exact ⟨hlen, hne⟩
    · rcases hmoved key with hkept | ⟨-, hdrops⟩
      · exact .inl (hkept.symm.trans hnil)
      · exact .inr hdrops
    · exact hremoved

/-- A new dictionary; the nodes that are not in use hold anything. -/
def Deques.init (node : Nat → Node N) (now : Nat) : Deques N :=
  { state := { dict := .init node, now }, deques := fun _ => [] }

/-- **In every careful run lists are the queues of what was pushed and not
popped, and nodes count them.** -/
theorem deques_right [Add N] (z : Zone) (node : Nat → Node N) (now : Nat) (events : List (Event N))
    (h : Guarded (dequeStep z) (Deques.Careful z) (Deques.init node now) events) :
    Goes (dequeStep z) (Deques.Right z) (Deques.init node now) events :=
  goes_of_guarded (fun _ _ => Deques.Inv.step) ⟨rep_init z node, fun n hn => (by cases hn), rfl⟩ h

/-- An operation a millisecond after the last one, with memory. -/
def soon (op : Op Int) : Event Int := { elapsed := 1, op, slab := fun _ => some fun _ => 0 }

def set (key : Bytes) (n : Int) : Op Int :=
  .store { add := false, replace := false, safe_store := false }
    { key, value := some (.number n), ttl := none, user_flags := 0 }

/-- A run with values pushed to both ends, popped, counted and flushed. -/
def pushesAndPops : List (Event Int) :=
  [.push [97] true (.number 1), .push [97] false (.number 2), set [98] 3, .pop [97] true, .llen [97],
    .pop [97] true, .push [97] true (.number 4), .flushAll, .llen [97]].map soon

theorem deques_right_pushesAndPops :
    Goes (dequeStep plainZone) (Deques.Right plainZone) (Deques.init (fun _ => blankNode) 1) pushesAndPops :=
  deques_right plainZone (fun _ => blankNode) 1 pushesAndPops (by decide +kernel)

/-- Five other keys, and a list that is flushed and pushed to again. -/
def pushAfterFlush : List (Event Int) :=
  [set [98] 1, set [99] 1, set [100] 1, set [101] 1, set [102] 1, .push [97] false (.number 1), .flushAll].map soon

/-- The push after the flush leaves one element and a count of two. -/
theorem flushed_list_miscounted :
    ¬ Goes (dequeStep plainZone) (Deques.Right plainZone) (Deques.init (fun _ => blankNode) 1)
      (pushAfterFlush ++ [soon (.push [97] false (.number 2))]) := by
  intro h
  obtain ⟨x, x', hrun, hright⟩ := h.last
  have hmiscounted : (run (dequeStep plainZone) (Deques.init (fun _ => blankNode) 1)
      (pushAfterFlush ++ [soon (.push [97] false (.number 2))])).all
        (fun x => x.state.dict.queue.any fun n => n.data.isList && n.value_len != n.data.elems.length) = true := by
    decide +kernel
  rw [hrun, all_some, List.any_eq_true] at hmiscounted
  obtain ⟨n, hn, hbad⟩ := hmiscounted
  have hcounts := hright.counts n hn
  cases hdata : n.data with
  | scalar v => simp [hdata, Data.isList] at hbad
  | list elems => simp [hdata, Data.isList, Data.elems, (hcounts elems hdata).1] at hbad

end OpenResty.NgxLua.Shdict
