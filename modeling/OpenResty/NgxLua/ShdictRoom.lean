/-
How a shared dictionary makes room for a node: other nodes go from the end of the queue, the last
one by force, and after it up to two that have expired, until the slab has memory.
-/
import OpenResty.NgxLua.ShdictReached

namespace OpenResty.NgxLua.Shdict

open Lib List Option

variable {N : Type} {z : Zone} {d d' : Shctx N} {sd : Nat} {key : Bytes} {now : Nat} {slab : Slab} {n : Node N}

/-! ## The end of the queue -/

instance (now : Nat) (n : Node N) : Decidable (n.scanned now) := inferInstanceAs (Decidable (_ ∧ _))

/-- How many entries at the end have expired, up to the first that has not. -/
def expiredTail (now : Nat) (q : List (Node N)) : Nat := (q.reverse.takeWhile fun n => decide (n.scanned now)).length

theorem expiredTail_nil : expiredTail now ([] : List (Node N)) = 0 := rfl

theorem expiredTail_concat (q : List (Node N)) (n : Node N) :
    expiredTail now (q ++ [n]) = if n.scanned now then expiredTail now q + 1 else 0 := by
  unfold expiredTail
  rw [reverse_append, reverse_singleton, singleton_append]
  by_cases h : n.scanned now
  · rw [if_pos h, takeWhile_cons_of_pos (by simpa using h), length_cons]
  · rw [if_neg h, takeWhile_cons_of_neg (by simpa using h), length_nil]

theorem expiredTail_le (q : List (Node N)) : expiredTail now q ≤ q.length := by
  unfold expiredTail
  have hle := ( takeWhile_prefix (l := q.reverse) fun n : Node N => decide (n.scanned now)).length_le
  rwa [length_reverse] at hle

/-- The entries that went, from the end of the queue. -/
structure Gone (z : Zone) (now : Nat) (d d' : Shctx N) (gone : List (Node N)) : Prop where
  rep : Rep z d'
  queue : d.queue = d'.queue ++ gone

/-- Without force the loop takes expired entries as long as there are rounds. -/
theorem scan_spec (h : Rep z d) (rounds : Nat) :
    ∃ gone, Gone z now d (d.expireLoop z now rounds false).2 gone ∧ (∀ n ∈ gone, n.scanned now) ∧
      gone.length = min rounds (expiredTail now d.queue) ∧
      (d.expireLoop z now rounds false).1 = gone.length ∧
      expiredTail now (d.expireLoop z now rounds false).2.queue = expiredTail now d.queue - gone.length := by
  induction rounds generalizing d with
  | zero => exact ⟨[], ⟨h, (append_nil _).symm⟩, by simp, by simp, rfl, rfl⟩
  | succ rounds ih =>
    rw [Shctx.expireLoop]
    cases hlast : d.lru_queue.getLast? with
    | none =>
      have hnil : d.queue = [] := by
        rw [Shctx.queue, getLast?_eq_none_iff.mp hlast]
        rfl
      refine ⟨[], ⟨h, (append_nil _).symm⟩, by simp, ?_, rfl, rfl⟩
      rw [hnil, expiredTail_nil]
      rfl
    | some sd =>
      obtain ⟨hrep, hqueue⟩ := h.removeLast hlast
      have htail := @expiredTail_concat N now (d.remove z sd).queue (d.node sd)
      rw [← hqueue] at htail
      dsimp only
      by_cases hexp : (d.node sd).scanned now
      · obtain ⟨gone, hgone, hall, hlen, hfreed, hrest⟩ := ih hrep
        have hgo : ¬ ((!false) = true ∧ ((d.node sd).expires = 0 ∨ 0 < (d.node sd).ms now)) := by
          rintro ⟨-, hzero | hpos⟩
          · exact hexp.1 hzero
          · exact absurd hexp.2 (by omega)
        rw [if_pos hexp] at htail
        rw [if_neg hgo]
        refine ⟨gone ++ [d.node sd], ⟨hgone.rep, ?_⟩, ?_, ?_, ?_, ?_⟩
        · rw [hqueue, hgone.queue, append_assoc]
        · intro n hn
          rcases mem_append.mp hn with hn | hn
          · exact hall n hn
          · rw [mem_singleton.mp hn]
            exact hexp
        · rw [length_append, length_singleton]
          omega
        · rw [length_append, length_singleton, hfreed]
        · rw [length_append, length_singleton, hrest]
          omega
      · have hstop : (!false) = true ∧ ((d.node sd).expires = 0 ∨ 0 < (d.node sd).ms now) := by
          refine ⟨rfl, ?_⟩
          unfold Node.scanned at hexp
          omega
        rw [if_neg hexp] at htail
        rw [if_pos hstop]
        exact ⟨[], ⟨h, (append_nil _).symm⟩, by simp, by rw [htail]; rfl, rfl, rfl⟩

/-- A forced round takes the last entry, and up to two expired ones. -/
theorem force_spec (h : Rep z d) (hne : d.queue ≠ []) :
    ∃ gone, Gone z now d (d.expire z now 0).2 gone ∧ (d.expire z now 0).1 = gone.length ∧ gone ≠ [] ∧
      (expiredTail now d.queue = 0 → ∃ n ∈ gone, ¬ n.scanned now) ∧
      (expiredTail now d.queue ≠ 0 → (∀ n ∈ gone, n.scanned now) ∧
        gone.length = min 3 (expiredTail now d.queue) ∧
        expiredTail now (d.expire z now 0).2.queue = expiredTail now d.queue - gone.length) := by
  unfold Shctx.expire
  rw [show 3 - 0 = 2 + 1 from rfl, Shctx.expireLoop]
  cases hlast : d.lru_queue.getLast? with
  | none =>
    refine absurd ?_ hne
    rw [Shctx.queue, getLast?_eq_none_iff.mp hlast]
    rfl
  | some sd =>
    obtain ⟨hrep, hqueue⟩ := h.removeLast hlast
    have htail := @expiredTail_concat N now (d.remove z sd).queue (d.node sd)
    rw [← hqueue] at htail
    obtain ⟨gone, hgone, hall, hlen, hfreed, hrest⟩ := @scan_spec N z _ now hrep 2
    simp only [decide_true, Bool.not_true, Bool.false_eq_true, false_and, if_false]
    refine ⟨gone ++ [d.node sd], ⟨hgone.rep, ?_⟩, ?_, by simp, fun hzero => ?_, fun hpos => ?_⟩
    · rw [hqueue, hgone.queue, append_assoc]
    · rw [length_append, length_singleton, hfreed]
    · refine ⟨d.node sd, by simp, fun hexp => ?_⟩
      rw [if_pos hexp] at htail
      omega
    · have hexp : (d.node sd).scanned now := by
        by_contra hlive
        rw [if_neg hlive] at htail
        exact hpos htail
      rw [if_pos hexp] at htail
      refine ⟨fun n hn => ?_, ?_, ?_⟩
      · rcases mem_append.mp hn with hn | hn
        · exact hall n hn
        · rw [mem_singleton.mp hn]
          exact hexp
      · rw [length_append, length_singleton]
        omega
      · rw [length_append, length_singleton, hrest]
        omega

/-! ## The rounds -/

theorem expire_nil (h : d.queue = []) : d.expire z now 0 = (0, d) := by
  have hqueue : d.lru_queue = [] := map_eq_nil_iff.mp h
  unfold Shctx.expire
  rw [show 3 - 0 = 2 + 1 from rfl, Shctx.expireLoop, hqueue]
  rfl

/-- How many rounds it takes until the slab has memory, or until none are left. -/
def roundsTaken (slab : Slab) : Nat → Nat → Nat
  | 0, _ => 0
  | rounds + 1, i => if (slab i).isSome then 1 else roundsTaken slab rounds (i + 1) + 1

/-- The rounds go past the expired entries at the end, and not all are expired. -/
def ReachesLive (now : Nat) (q : List (Node N)) (rounds : Nat) : Prop :=
  expiredTail now q < q.length ∧ expiredTail now q + 2 < 3 * rounds

theorem evict_spec (h : Rep z d) (rounds i : Nat) (forcible : Bool) :
    ∃ gone, Gone z now d (d.evictLoop z now slab rounds i forcible).2.2 gone ∧
      ((d.evictLoop z now slab rounds i forcible).2.1 = true ↔ forcible = true ∨ rounds ≠ 0 ∧ d.queue ≠ []) ∧
      ((∃ n ∈ gone, ¬ n.scanned now) ↔ ReachesLive now d.queue (roundsTaken slab rounds i)) := by
  induction rounds generalizing d i forcible with
  | zero =>
    refine ⟨[], ⟨h, (append_nil _).symm⟩, by simp [Shctx.evictLoop], ?_⟩
    unfold ReachesLive roundsTaken
    simp
  | succ rounds ih =>
    rw [Shctx.evictLoop]
    by_cases hnil : d.queue = []
    · rw [expire_nil hnil]
      refine ⟨[], ⟨h, (append_nil _).symm⟩, by simp [hnil], ?_⟩
      unfold ReachesLive
      simp [hnil, expiredTail_nil]
    · obtain ⟨gone, hgone, hfreed, hsome, hlive, hexpired⟩ := @force_spec N z d now h hnil
      have hne : ¬ (d.expire z now 0).1 = 0 := by
        rw [hfreed]
        exact fun hzero => hsome (eq_nil_of_length_eq_zero hzero)
      have hlength : d.queue.length = (d.expire z now 0).2.queue.length + gone.length := by
        rw [hgone.queue, length_append]
      have htailLe := @expiredTail_le N now d.queue
      have hlenPos := length_pos_iff.mpr hnil
      have hgonePos := length_pos_iff.mpr hsome
      dsimp only
      rw [if_neg hne]
      cases hslab : slab i with
      | some mem =>
        refine ⟨gone, hgone, by simp [hnil], ?_⟩
        unfold ReachesLive roundsTaken
        rw [hslab, isSome_some, if_pos rfl]
        by_cases hzero : expiredTail now d.queue = 0
        · exact iff_of_true (hlive hzero) (by omega)
        · refine iff_of_false ?_ (by omega)
          rintro ⟨n, hn, hnot⟩
          exact hnot ((hexpired hzero).1 n hn)
      | none =>
        obtain ⟨gone', hgone', hflag, hreach⟩ := ih hgone.rep (i + 1) true
        refine ⟨gone' ++ gone, ⟨hgone'.rep, ?_⟩, ?_, ?_⟩
        · rw [hgone.queue, hgone'.queue, append_assoc]
        · dsimp only
          rw [hflag]
          exact iff_of_true (.inl rfl) (.inr ⟨Nat.succ_ne_zero _, hnil⟩)
        · have hmem : (∃ n ∈ gone' ++ gone, ¬ n.scanned now) ↔
              (∃ n ∈ gone', ¬ n.scanned now) ∨ ∃ n ∈ gone, ¬ n.scanned now := by
            simp only [mem_append, or_and_right, exists_or]
          rw [hmem, hreach]
          unfold ReachesLive
          rw [roundsTaken, hslab, isSome_none, if_neg Bool.false_ne_true]
          by_cases hzero : expiredTail now d.queue = 0
          · exact iff_of_true (.inr (hlive hzero)) (by omega)
          · obtain ⟨hall, hlen, hrest⟩ := hexpired hzero
            have hnone : ¬ ∃ n ∈ gone, ¬ n.scanned now := by
              rintro ⟨n, hn, hnot⟩
              exact hnot (hall n hn)
            rw [or_iff_left hnone, hrest]
            omega

/-! ## Who asks for memory -/

def Stored.forcible : Stored → Bool
  | .ok forcible | .noMemory forcible => forcible
  | .exists | .notFound => false

def Incremented.forcible : Incremented N → Bool
  | .created _ forcible | .noMemory forcible => forcible
  | .added _ | .notFound | .notNumber => false

/-- A store goes ahead with a value that does not fit where the key's entry is. -/
def StoreOp.Asks (now : Nat) (op : StoreOp) (item : Item N) (o : Option (Node N)) : Prop :=
  op.Writes now o ∧ ∃ value ∈ item.value, ∀ n ∈ o, ¬ (value.len = n.value_len ∧ n.data.isList = false)

/-- A store that does not ask for memory removes no other entry. -/
structure Untouched (z : Zone) (key : Bytes) (d : Shctx N) (r : Stored × Shctx N) : Prop where
  unforced : r.1.forcible = false
  memory : ∀ forcible, r.1 ≠ .noMemory forcible
  after : ∃ o, After z False key d r.2 o

/-- Memory is asked for when the key's entry is gone. -/
structure AsksAt (z : Zone) (key : Bytes) (d d' : Shctx N) : Prop where
  rep : Rep z d'
  queue : d'.queue = others Node.key key d.queue

section store

variable {op : StoreOp} {item : Item N} {rest : List (Node N)}

theorem storeReplace_cases (slab : Slab) (h : Front z d' sd n (others Node.key item.key d.queue))
    (hentry : d.entry item.key = some n) (hwrites : op.Writes now (d.entry item.key)) :
    ¬ op.Asks now item (d.entry item.key) ∧ Untouched z item.key d (d'.storeReplace z now slab op item sd) ∨
      op.Asks now item (d.entry item.key) ∧ ∃ d₁, AsksAt z item.key d d₁ ∧
        d'.storeReplace z now slab op item sd = d₁.storeInsert z now slab op item := by
  obtain ⟨hrep, hqueue⟩ := h.remove
  have hkey := key_of_entry hentry
  unfold Shctx.storeReplace StoreOp.Asks
  cases hvalue : item.value with
  | none =>
    have hnot : ¬ ∃ value ∈ (none : Option (Value N)), ∀ n ∈ d.entry item.key,
        ¬ (value.len = n.value_len ∧ n.data.isList = false) := by
      rintro ⟨value, hv, -⟩
      cases hv
    refine .inl ⟨fun h => hnot h.2, ?_⟩
    dsimp only
    unfold Shctx.storeInsert
    rw [hvalue]
    exact ⟨rfl, fun _ h => (by cases h), none, .removed hrep (by rw [hqueue]; exact .refl)⟩
  | some value =>
    dsimp only
    rw [h.node]
    by_cases hfits : value.len = n.value_len ∧ n.data.isList = false
    · rw [if_pos hfits]
      refine .inl ⟨?_, rfl, fun _ h => (by cases h), ?_⟩
      · rintro ⟨-, v, hv, hnot⟩
        cases hv
        exact hnot n hentry hfits
      · have hput := h.toFront.setNode { n with
          key := item.key, value_len := value.len, data := .scalar value
          expires := expiresAt now item.ttl, user_flags := item.user_flags } rfl hkey.symm
        exact ⟨_, hput.after rfl .refl⟩
    · rw [if_neg hfits]
      refine .inr ⟨⟨hwrites, value, rfl, fun m hm => ?_⟩, d'.remove z sd, ⟨hrep, hqueue⟩, rfl⟩
      rw [some.inj (hm.symm.trans hentry)]
      exact hfits

theorem storeInsert_cases (slab : Slab) (h : Rep z d) (hnone : d.entry item.key = none)
    (hwrites : op.Writes now (d.entry item.key)) :
    ¬ op.Asks now item (d.entry item.key) ∧ Untouched z item.key d (d.storeInsert z now slab op item) ∨
      op.Asks now item (d.entry item.key) ∧ ∃ d₁, AsksAt z item.key d d₁ ∧
        d.storeInsert z now slab op item = d₁.storeInsert z now slab op item := by
  cases hvalue : item.value with
  | none =>
    refine .inl ⟨?_, ?_⟩
    · rintro ⟨-, v, hv, -⟩
      rw [hvalue] at hv
      cases hv
    · unfold Shctx.storeInsert
      rw [hvalue]
      exact ⟨rfl, fun _ h => (by cases h), _, .self h⟩
  | some value =>
    refine .inr ⟨⟨hwrites, value, hvalue, fun m hm => ?_⟩, d, ⟨h, (others_of_none hnone).symm⟩, rfl⟩
    rw [hnone] at hm
    cases hm

/-- **What a store does to other entries**: nothing, or it comes to the slab with the others. -/
theorem store_cases (slab : Slab) (op : StoreOp) (item : Item N) (h : Rep z (d.scanned z now)) :
    ¬ op.Asks now item ((d.scanned z now).entry item.key) ∧
        Untouched z item.key (d.scanned z now) (d.store z now slab op item) ∨
      op.Asks now item ((d.scanned z now).entry item.key) ∧ ∃ d₁, AsksAt z item.key (d.scanned z now) d₁ ∧
        d.store z now slab op item = d₁.storeInsert z now slab op item := by
  unfold Shctx.store
  unfold Shctx.scanned at h ⊢
  dsimp only
  generalize (d.expire z now 1).2 = d at h ⊢
  have hstop : ∀ {sd : Nat} {n : Node N} {r : Stored}, d.entry item.key = some n →
      Front z (d.toFront sd) sd n (others Node.key item.key d.queue) → ¬ op.Writes now (d.entry item.key) →
      r.forcible = false → (∀ forcible, r ≠ .noMemory forcible) →
      ¬ op.Asks now item (d.entry item.key) ∧ Untouched z item.key d (r, d.toFront sd) :=
    fun hentry hfront hnot hforcible hmemory =>
      ⟨fun hasks => hnot hasks.1, hforcible, hmemory, _, hfront.after (key_of_entry hentry) .refl⟩
  rcases h.lookup now item.key with ⟨hnone, hrc⟩ | ⟨n, sd, hentry, hfront, ⟨hexp, hrc⟩ | ⟨hlive, hrc⟩⟩
  · have hdead : ¬ Live now (d.entry item.key) := not_live_none hnone
    rw [hrc]
    dsimp only
    split
    · next hreplace =>
      refine .inl ⟨fun hasks => ?_, rfl, fun _ h => (by cases h), _, .self h⟩
      have hwrites := hasks.1
      rw [StoreOp.Writes, if_pos hreplace] at hwrites
      exact hdead hwrites
    · next hreplace =>
      have hwrites : op.Writes now (d.entry item.key) := by
        rw [StoreOp.Writes, if_neg hreplace]
        exact fun _ => hdead
      split
      · exact storeInsert_cases slab h hnone hwrites
      · exact storeInsert_cases slab h hnone hwrites
  · have hdead : ¬ Live now (d.entry item.key) := fun hlive => (live_iff hentry).mp hlive hexp
    rw [hrc]
    dsimp only
    split
    · next hreplace =>
      refine .inl (hstop hentry hfront (fun hwrites => ?_) rfl fun _ h => (by cases h))
      rw [StoreOp.Writes, if_pos hreplace] at hwrites
      exact hdead hwrites
    · next hreplace =>
      have hwrites : op.Writes now (d.entry item.key) := by
        rw [StoreOp.Writes, if_neg hreplace]
        exact fun _ => hdead
      split
      · exact storeReplace_cases slab hfront hentry hwrites
      · exact storeReplace_cases slab hfront hentry hwrites
  · have halive : Live now (d.entry item.key) := (live_iff hentry).mpr hlive
    rw [hrc]
    dsimp only
    split
    · next hreplace =>
      exact storeReplace_cases slab hfront hentry (by rw [StoreOp.Writes, if_pos hreplace]; exact halive)
    · next hreplace =>
      split
      · next hadd =>
        refine .inl (hstop hentry hfront (fun hwrites => ?_) rfl fun _ h => (by cases h))
        rw [StoreOp.Writes, if_neg hreplace] at hwrites
        exact hwrites hadd halive
      · next hadd =>
        refine storeReplace_cases slab hfront hentry ?_
        rw [StoreOp.Writes, if_neg hreplace]
        exact fun h => absurd h hadd

end store

section incr

variable [Add N] {value : N} {init : Option N}

/-- **What an increment does to other entries**: nothing, or it comes to the slab with the others. -/
theorem incr_cases (slab : Slab) (key : Bytes) (value : N) (init : Option N) (h : Rep z (d.scanned z now)) :
    ¬ (init ≠ none ∧ Inserts now ((d.scanned z now).entry key)) ∧
        (d.incr z now slab key value init).1.forcible = false ∧
        (∀ forcible, (d.incr z now slab key value init).1 ≠ .noMemory forcible) ∧
        (∃ o, After z False key (d.scanned z now) (d.incr z now slab key value init).2 o) ∨
      (init ≠ none ∧ Inserts now ((d.scanned z now).entry key)) ∧ ∃ d₁ num, AsksAt z key (d.scanned z now) d₁ ∧
        d.incr z now slab key value init = d₁.incrInsert z now slab key num := by
  have hlookup := lookup_after False now key h
  unfold Shctx.incr
  unfold Shctx.scanned at h hlookup ⊢
  dsimp only
  generalize (d.expire z now 1).2 = d at h hlookup ⊢
  rcases h.lookup now key with ⟨hnone, hrc⟩ | ⟨n, sd, hentry, hfront, ⟨hexp, hrc⟩ | ⟨hlive, hrc⟩⟩
  · rw [hrc] at hlookup ⊢
    cases init with
    | none => exact .inl ⟨fun h => h.1 rfl, rfl, fun _ h => (by cases h), _, hlookup⟩
    | some i =>
      refine .inr ⟨⟨some_ne_none i, fun m hm => ?_⟩, d, _, ⟨h, (others_of_none hnone).symm⟩, rfl⟩
      rw [Shctx.entry, hnone] at hm
      cases hm
  · have hkey := key_of_entry hentry
    obtain ⟨hrep, hqueue⟩ := hfront.remove
    rw [hrc] at hlookup ⊢
    cases init with
    | none => exact .inl ⟨fun h => h.1 rfl, rfl, fun _ h => (by cases h), _, hlookup⟩
    | some i =>
      dsimp only
      rw [hfront.node]
      by_cases hfits : n.value_len = 8 ∧ n.data.isList = false
      · rw [if_pos hfits]
        refine .inl ⟨fun h => (h.2 n hentry).2 hfits, rfl, fun _ h => (by cases h), ?_⟩
        have hput := hfront.toFront.setNode { n with
          key, data := .scalar (.number (value + i)), expires := 0, user_flags := 0 } rfl hkey.symm
        exact ⟨_, hput.after rfl .refl⟩
      · rw [if_neg hfits]
        refine .inr ⟨⟨some_ne_none i, fun m hm => ?_⟩, d.toFront sd |>.remove z sd, _, ⟨hrep, hqueue⟩, rfl⟩
        rw [some.inj (hm.symm.trans hentry)]
        exact ⟨hexp, hfits⟩
  · have hkey := key_of_entry hentry
    have hnot : ¬ (init ≠ none ∧ Inserts now (d.entry key)) := fun h => hlive (h.2 n hentry).1
    have hsame : After z False key d (d.toFront sd) (some n) := hfront.after hkey .refl
    rw [hrc]
    dsimp only
    rw [hfront.node]
    split
    · next num hdata =>
      split
      · exact .inl ⟨hnot, rfl, fun _ h => (by cases h), _, hsame⟩
      · have hput := hfront.toFront.setNode { n with data := .scalar (.number (num + value)) } rfl rfl
        exact .inl ⟨hnot, rfl, fun _ h => (by cases h), _, hput.after hkey .refl⟩
    · exact .inl ⟨hnot, rfl, fun _ h => (by cases h), _, hsame⟩

end incr

/-! ## What the slab gives -/

/-- Memory for a node: other entries go only when the slab has none at first and the store is not a
safe one. -/
theorem allocate_spec (h : Rep z d) (slab : Slab) (safe : Bool) :
    ∃ gone, Gone z now d (d.allocate z now slab safe).2.2 gone ∧
      ((d.allocate z now slab safe).2.1 = true ↔ slab 0 = none ∧ safe = false ∧ d.queue ≠ []) ∧
      ((∃ n ∈ gone, ¬ n.scanned now) ↔
        slab 0 = none ∧ safe = false ∧ ReachesLive now d.queue (roundsTaken slab 30 1)) := by
  rw [Shctx.allocate]
  cases hslab : slab 0 with
  | some mem =>
    refine ⟨[], ⟨h, (append_nil _).symm⟩, ?_, ?_⟩
    · exact iff_of_false Bool.false_ne_true fun h => by cases h.1
    · exact iff_of_false (fun h => by simp at h) fun h => by cases h.1
  | none =>
    cases safe with
    | true =>
      refine ⟨[], ⟨h, (append_nil _).symm⟩, ?_, ?_⟩
      · exact iff_of_false Bool.false_ne_true fun h => by cases h.2.1
      · exact iff_of_false (fun h => by simp at h) fun h => by cases h.2.1
    | false =>
      obtain ⟨gone, hgone, hflag, hreach⟩ := @evict_spec N z d now slab h 30 1 false
      refine ⟨gone, hgone, hflag.trans ?_, hreach.trans ?_⟩
      · simp
      · simp

end OpenResty.NgxLua.Shdict
