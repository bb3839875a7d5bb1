/-
What a store of a shared dictionary that gets no memory leaves: the old node of the key is freed
before memory for the new one is asked for.
-/
import OpenResty.NgxLua.ShdictForcible

namespace OpenResty.NgxLua.Shdict

open Lib Lib.Transition Option List

variable {N : Type} {z : Zone} {d d' : Shctx N} {key : Bytes} {now : Nat} {slab : Slab}

/-! ## The law -/

/-- What `get` reads under the key: the entry with its value, flags and time, unless it has expired. -/
def Shctx.reading (z : Zone) (now : Nat) (d : Shctx N) (key : Bytes) : Option (Node N) :=
  ((d.scanned z now).entry key).filter fun n => ¬ n.expired now

/-- The store returns "no memory". -/
def Stored.refused : Stored → Bool
  | .noMemory _ => true
  | .ok _ | .exists | .notFound => false

theorem Stored.refused_iff {r : Stored} : r.refused = true ↔ ∃ forcible, r = .noMemory forcible := by
  cases r <;> simp [Stored.refused]

/-- A store without memory leaves what is read under its key, and a safe one the other entries that
have not expired. -/
structure StoreRight (z : Zone) (now : Nat) (op : StoreOp) (item : Item N) (d : Shctx N) (r : Stored × Shctx N) :
    Prop where
  reading : ∀ forcible, r.1 = .noMemory forcible → r.2.reading z now item.key = d.reading z now item.key
  safe : op.safe_store = true → ∀ n ∈ d.queue, n.key ≠ item.key → ¬ n.scanned now → r.2.entry n.key = some n

/-- An increment without memory leaves what is read under its key. -/
def IncrRight (z : Zone) (now : Nat) (key : Bytes) (d : Shctx N) (r : Incremented N × Shctx N) : Prop :=
  ∀ forcible, r.1 = .noMemory forcible → r.2.reading z now key = d.reading z now key

/-- What a forced round leaves. -/
def afterRound (now : Nat) (q : List (Node N)) : List (Node N) :=
  q.dropLast.take (q.dropLast.length - min 2 (expiredTail now q.dropLast))

/-- How many rounds there are until no entry is left. -/
def roundsToEmpty (now : Nat) : Nat → List (Node N) → Nat
  | 0, _ => 0
  | _ + 1, [] => 0
  | rounds + 1, n :: q => roundsToEmpty now rounds (afterRound now (n :: q)) + 1

/-- The slab has memory at once, or after some round when others may go. -/
def HasMemory (now : Nat) (slab : Slab) (safe : Bool) (q : List (Node N)) : Prop :=
  ∃ i, slab i ≠ none ∧ (i = 0 ∨ safe = false ∧ i ≤ roundsToEmpty now 30 q)

/-! ## Memory -/

theorem queue_force (h : Rep z d) : (d.expire z now 0).2.queue = afterRound now d.queue := by
  unfold Shctx.expire
  rw [show 3 - 0 = 2 + 1 from rfl, Shctx.expireLoop]
  cases hlast : d.lru_queue.getLast? with
  | none =>
    have hnil : d.queue = [] := by
      rw [Shctx.queue, getLast?_eq_none_iff.mp hlast]
      rfl
    rw [hnil]
    rfl
  | some sd =>
    obtain ⟨hrep, hqueue⟩ := h.removeLast hlast
    obtain ⟨gone, hgone, -, hlen, -, -⟩ := @scan_spec N z _ now hrep 2
    have hlength : (d.remove z sd).queue.length - gone.length =
        (Shctx.expireLoop z now 2 false (d.remove z sd)).2.queue.length := by
      rw [hgone.queue, length_append]
      omega
    simp only [decide_true, Bool.not_true, Bool.false_eq_true, false_and, if_false]
    unfold afterRound
    rw [hqueue, dropLast_concat, ← hlen, hlength]
    conv_rhs => rw [hgone.queue]
    rw [take_left]

/-- The rounds find no memory if the slab has none as often as they come to it. -/
theorem evict_none_iff (h : Rep z d) (rounds i : Nat) (forcible : Bool) :
    (d.evictLoop z now slab rounds i forcible).1 = none ↔
      ∀ j < roundsToEmpty now rounds d.queue, slab (i + j) = none := by
  induction rounds generalizing d i forcible with
  | zero => exact iff_of_true rfl fun j hj => absurd hj (Nat.not_lt_zero j)
  | succ rounds ih =>
    rw [Shctx.evictLoop]
    rcases hqueue : d.queue with _ | ⟨n, q⟩
    · rw [expire_nil hqueue]
      exact iff_of_true rfl fun j hj => absurd hj (Nat.not_lt_zero j)
    · have hne : d.queue ≠ [] := by
        rw [hqueue]
        exact cons_ne_nil n q
      obtain ⟨gone, hgone, hfreed, hsome, -, -⟩ := @force_spec N z d now h hne
      have hpos : ¬ (d.expire z now 0).1 = 0 := by
        rw [hfreed]
        exact fun hzero => hsome (eq_nil_of_length_eq_zero hzero)
      have hafter : (d.expire z now 0).2.queue = afterRound now (n :: q) := by rw [queue_force h, hqueue]
      dsimp only
      rw [if_neg hpos, roundsToEmpty]
      cases hslab : slab i with
      | some mem =>
        refine iff_of_false (fun h => by cases h) fun hall => ?_
        have hfirst := hall 0 (Nat.succ_pos _)
        rw [Nat.add_zero, hslab] at hfirst
        cases hfirst
      | none =>
        dsimp only
        rw [ih hgone.rep, hafter]
        constructor
        · intro hall j hj
          rcases j with _ | j
          · exact hslab
          · have hnext := hall j (by omega)
            rwa [show i + 1 + j = i + (j + 1) by omega] at hnext
        · intro hall j hj
          have hnext := hall (j + 1) (by omega)
          rwa [show i + (j + 1) = i + 1 + j by omega] at hnext

/-- Memory is refused if the slab has none at any of its calls. -/
theorem allocate_none_iff (h : Rep z d) (slab : Slab) (safe : Bool) :
    (d.allocate z now slab safe).1 = none ↔ ¬ HasMemory now slab safe d.queue := by
  unfold Shctx.allocate HasMemory
  cases hslab : slab 0 with
  | some mem =>
    refine iff_of_false (fun h => by cases h) fun hnot => hnot ⟨0, ?_, .inl rfl⟩
    rw [hslab]
    exact some_ne_none mem
  | none =>
    cases safe with
    | true =>
      refine iff_of_true rfl ?_
      rintro ⟨i, hsome, rfl | ⟨hfalse, -⟩⟩
      · exact hsome hslab
      · cases hfalse
    | false =>
      dsimp only
      rw [if_neg Bool.false_ne_true, evict_none_iff h]
      constructor
      · rintro hall ⟨i, hsome, rfl | ⟨-, hle⟩⟩
        · exact hsome hslab
        · rcases i with _ | i
          · exact hsome hslab
          · have hnone := hall i hle
            rw [Nat.add_comm] at hnone
            exact hsome hnone
      · intro hnot j hj
        by_contra hsome
        exact hnot ⟨1 + j, hsome, .inr ⟨rfl, by omega⟩⟩

/-! ## What is left -/

theorem reading_none_iff : d.reading z now key = none ↔ ¬ Live now ((d.scanned z now).entry key) := by
  unfold Shctx.reading Live
  cases (d.scanned z now).entry key with
  | none => simp
  | some n => simp [filter_some]

/-- An entry that is gone is not read. -/
theorem reading_of_entry (h : Rep z d) (hnone : d.entry key = none) : d.reading z now key = none := by
  unfold Shctx.reading
  rw [Shctx.entry, (h.scan now).2.entry_none hnone]
  rfl

/-- When nothing that had not expired went, the others are as they were. -/
theorem kept_of_room {safe : Bool} {forcible : Bool} {left gone : List (Node N)} (h : Rep z d)
    (hroom : Room slab safe now key forcible (d.scanned z now) d' left gone) (hsafe : safe = true) {n : Node N}
    (hn : n ∈ d.queue) (hkey : n.key ≠ key) (hlive : ¬ n.scanned now) : d'.entry n.key = some n := by
  obtain ⟨went, heq, hwent⟩ := (h.scan now).2
  rw [heq] at hn
  rcases mem_append.mp hn with hin | hin
  · have hothers : n ∈ left ++ gone := by
      rw [← hroom.split]
      exact mem_others.mpr ⟨hin, hkey⟩
    have hentry : Lib.entry Node.key n.key (left ++ gone) = some n := by
      rw [← hroom.split, entry_others_of_ne hkey]
      exact (h.scan now).1.entry_of_mem hin
    rcases mem_append.mp hothers with hleft | hgone
    · rw [hroom.entry _ hkey]
      rw [entry_append] at hentry
      cases hfound : Lib.entry Node.key n.key left with
      | none => exact absurd rfl (entry_eq_none.mp hfound n hleft)
      | some m => rwa [hfound] at hentry
    · have hfalse := (hroom.live.mp ⟨n, hgone, hlive⟩).2.1
      rw [hsafe] at hfalse
      cases hfalse
  · exact absurd (hwent n hin) hlive

/-- Nothing is read after a store without memory: the entry went before memory was asked for. -/
theorem storeInsert_memory {d₁ : Shctx N} {op : StoreOp} {item : Item N} {value : Value N} (slab : Slab)
    (h : AsksAt z item.key d d₁) (hvalue : item.value = some value) :
    ¬ HasMemory now slab op.safe_store (others Node.key item.key d.queue) ∧
        (∃ forcible, (d₁.storeInsert z now slab op item).1 = .noMemory forcible) ∧
        (d₁.storeInsert z now slab op item).2.reading z now item.key = none ∨
      HasMemory now slab op.safe_store (others Node.key item.key d.queue) ∧
        ∃ forcible, (d₁.storeInsert z now slab op item).1 = .ok forcible := by
  obtain ⟨left, gone, hsplit, hleft, hrep, -⟩ := @room_of_allocate N z d item.key now d₁ slab op.safe_store h
  have hnone := @allocate_none_iff N z d₁ now h.rep slab op.safe_store
  rw [h.queue] at hnone
  unfold Shctx.storeInsert
  rw [hvalue]
  dsimp only
  rcases hallocate : d₁.allocate z now slab op.safe_store with ⟨mem, forcible, d₂⟩
  rw [hallocate] at hleft hrep hnone
  cases mem with
  | none =>
    refine .inl ⟨hnone.mp rfl, ⟨forcible, rfl⟩, reading_of_entry hrep ?_⟩
    rw [Shctx.entry, hleft]
    exact entry_eq_none.mpr fun n hn => (mem_others.mp (hsplit ▸ mem_append_left _ hn)).2
  | some mem => exact .inr ⟨not_not.mp fun hnot => (by cases hnone.mpr hnot), forcible, rfl⟩

/-- An increment asks for memory only when nothing is read, and then nothing is read after it. -/
theorem incrInsert_memory {d₁ : Shctx N} (slab : Slab) (num : N) {forcible : Bool} (h : AsksAt z key d d₁)
    (hrefused : (d₁.incrInsert z now slab key num).1 = .noMemory forcible) :
    (d₁.incrInsert z now slab key num).2.reading z now key = none := by
  obtain ⟨left, gone, hsplit, hleft, hrep, -⟩ := @room_of_allocate N z d key now d₁ slab false h
  unfold Shctx.incrInsert at hrefused ⊢
  rcases hallocate : d₁.allocate z now slab false with ⟨mem, forcible, d₂⟩
  rw [hallocate] at hleft hrep hrefused
  cases mem with
  | none =>
    refine reading_of_entry hrep ?_
    rw [Shctx.entry, hleft]
    exact entry_eq_none.mpr fun n hn => (mem_others.mp (hsplit ▸ mem_append_left _ hn)).2
  | some mem => cases hrefused

/-! ## The stores -/

/-- A safe store without room to make leaves the others. -/
theorem kept_of_after {o : Option (Node N)} (h : Rep z d) (hafter : After z False key (d.scanned z now) d' o)
    {n : Node N} (hn : n ∈ d.queue) (hkey : n.key ≠ key) (hlive : ¬ n.scanned now) : d'.entry n.key = some n := by
  obtain ⟨gone, heq, hgone⟩ := (h.scan now).2
  rw [heq] at hn
  rcases mem_append.mp hn with hin | hin
  · rcases hafter.other hkey with hsame | ⟨-, hfalse⟩
    · rw [hsame]
      exact (h.scan now).1.entry_of_mem hin
    · exact hfalse.elim
  · exact absurd (hgone n hin) hlive

/-- When a store is right. -/
theorem store_right_iff (h : Rep z d) (slab : Slab) (op : StoreOp) (item : Item N) :
    StoreRight z now op item d (d.store z now slab op item) ↔
      (op.Asks now item ((d.scanned z now).entry item.key) → Live now ((d.scanned z now).entry item.key) →
        HasMemory now slab op.safe_store (others Node.key item.key (d.scanned z now).queue)) := by
  rcases store_cases slab op item (h.scan now).1 with ⟨hnot, -, hmemory, o, hafter⟩ | ⟨hasks, d₁, hat, heq⟩
  · refine iff_of_true ⟨fun forcible hrefused => absurd hrefused (hmemory forcible), fun _ n hn hkey hlive => ?_⟩
      fun hasks => absurd hasks hnot
    exact kept_of_after h hafter hn hkey hlive
  · obtain ⟨-, value, hvalue, -⟩ := id hasks
    obtain ⟨left, gone, hroom⟩ := @storeInsert_room N z _ now d₁ slab op item value hat hvalue
    have hsafe : op.safe_store = true → ∀ n ∈ d.queue, n.key ≠ item.key → ¬ n.scanned now →
        (d₁.storeInsert z now slab op item).2.entry n.key = some n :=
      fun hsafe n hn hkey hlive => kept_of_room h hroom hsafe hn hkey hlive
    rw [heq]
    rcases @storeInsert_memory N z _ now d₁ op item value slab hat hvalue with
      ⟨hshort, ⟨forcible, hrefused⟩, hnone⟩ | ⟨hmemory, forcible, hstored⟩
    · constructor
      · intro hright _ hlive
        have hsame := hright.reading forcible hrefused
        rw [hnone] at hsame
        exact absurd hlive (reading_none_iff.mp hsame.symm)
      · refine fun hmemory => ⟨fun _ _ => ?_, hsafe⟩
        rw [hnone]
        exact (reading_none_iff.mpr fun hlive => hshort (hmemory hasks hlive)).symm
    · refine iff_of_true ⟨fun forcible hrefused => ?_, hsafe⟩ fun _ _ => hmemory
      rw [hstored] at hrefused
      cases hrefused

/-- An increment is always right. -/
theorem incr_right [Add N] (h : Rep z d) (slab : Slab) (key : Bytes) (value : N) (init : Option N) :
    IncrRight z now key d (d.incr z now slab key value init) := by
  intro forcible hrefused
  rcases incr_cases slab key value init (h.scan now).1 with ⟨-, -, hmemory, -⟩ | ⟨⟨-, hinserts⟩, d₁, num, hat, heq⟩
  · exact absurd hrefused (hmemory forcible)
  · rw [heq] at hrefused ⊢
    rw [incrInsert_memory slab num hat hrefused]
    refine (reading_none_iff.mpr ?_).symm
    rintro ⟨n, hn, hlive⟩
    exact hlive (hinserts n hn).1

/-- **A store without memory leaves its key exactly if there was nothing to read, or the new value fits
where the old one was, or there is memory after all**: the old node is freed before memory is asked
for. Increments, and the other keys of safe stores, are left as they were. -/
theorem no_memory_right_iff [Add N] {s : State N} (h : Reached z s) (now : Nat) (slab : Slab) :
    (∀ op item, StoreRight z now op item s.dict (s.dict.store z now slab op item) ↔
      (op.Asks now item ((s.dict.scanned z now).entry item.key) →
        Live now ((s.dict.scanned z now).entry item.key) →
        HasMemory now slab op.safe_store (others Node.key item.key (s.dict.scanned z now).queue))) ∧
    ∀ key value init, IncrRight z now key s.dict (s.dict.incr z now slab key value init) :=
  ⟨store_right_iff h.sane.rep slab, incr_right h.sane.rep slab⟩

/-- A number where `true` was. -/
def firstAgain : Item Int := { key := [97], value := some (.number 1), ttl := none, user_flags := 0 }

/-- With memory at once the store is right. -/
theorem no_memory_right_firstAgain : ∃ s : State Int, Reached plainZone s ∧
    StoreRight plainZone 102 plainStore firstAgain s.dict
      (s.dict.store plainZone 102 (fun _ => some fun _ => 0) plainStore firstAgain) := by
  obtain ⟨s, -, hreached⟩ := reached_threeShort
  refine ⟨s, hreached, ((no_memory_right_iff hreached 102 fun _ => some fun _ => 0).1 plainStore firstAgain).mpr ?_⟩
  intro _ _
  exact ⟨0, some_ne_none _, .inl rfl⟩

def safeStore : StoreOp := { add := false, replace := false, safe_store := true }

/-- The slab is full, and the key that was to be read is gone after the safe store. -/
theorem no_memory_not_right : ¬ ∀ (s : State Int) (now : Nat) (slab : Slab) (op : StoreOp) (item : Item Int),
    Reached plainZone s → StoreRight plainZone now op item s.dict (s.dict.store plainZone now slab op item) := by
  intro h
  obtain ⟨s, hrun, hreached⟩ := reached_threeShort
  have hright := h s 102 (fun _ => none) safeStore firstAgain hreached
  have hgone : (run (step plainZone) { dict := .init fun _ => blankNode, now := 100 } threeShort).all
      (fun s => (s.dict.store plainZone 102 (fun _ => none) safeStore firstAgain).1.refused &&
        (s.dict.reading plainZone 102 [97]).isSome &&
        ((s.dict.store plainZone 102 (fun _ => none) safeStore firstAgain).2.reading plainZone 102 [97]).isNone) =
      true := by
    decide +kernel
  rw [hrun, all_some, Bool.and_eq_true, Bool.and_eq_true, isNone_iff_eq_none] at hgone
  obtain ⟨⟨hrefused, hsome⟩, hnone⟩ := hgone
  obtain ⟨forcible, heq⟩ := Stored.refused_iff.mp hrefused
  have hsame := hright.reading forcible heq
  rw [show firstAgain.key = [97] from rfl, hnone] at hsame
  rw [← hsame] at hsome
  cases hsome

end OpenResty.NgxLua.Shdict
