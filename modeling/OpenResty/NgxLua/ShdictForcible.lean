/-
The flag `forcible` of the stores of a shared dictionary: whether entries that had not expired were
removed for a new one.

It is set in every round that frees something, also when all that goes has expired.
-/
import OpenResty.NgxLua.ShdictRoom

namespace OpenResty.NgxLua.Shdict

open Lib Lib.Transition Function List

variable {N : Type} {z : Zone} {d d' : Shctx N} {key : Bytes} {now : Nat} {slab : Slab}

/-! ## The law -/

/-- The flag says whether an entry of another key that had not expired was removed. -/
def ForcibleRight (now : Nat) (key : Bytes) (forcible : Bool) (d d' : Shctx N) : Prop :=
  forcible = true ↔ ∃ n ∈ d.queue, n.key ≠ key ∧ ¬ n.scanned now ∧ d'.entry n.key = none

/-- When room is made there is no other entry, or the rounds go past the expired ones at the end. -/
def RoundsRight (now : Nat) (slab : Slab) (q : List (Node N)) : Prop :=
  slab 0 = none → q = [] ∨ ReachesLive now q (roundsTaken slab 30 1)

/-! ## What is removed -/

/-- The others of the key are those `left` and those `gone` for a new entry. -/
structure Room (slab : Slab) (safe : Bool) (now : Nat) (key : Bytes) (forcible : Bool) (d d' : Shctx N)
    (left gone : List (Node N)) : Prop where
  split : others Node.key key d.queue = left ++ gone
  apart : ∀ n ∈ left, ∀ m ∈ gone, n.key ≠ m.key
  entry : ∀ k, k ≠ key → d'.entry k = Lib.entry Node.key k left
  flag : forcible = true ↔ slab 0 = none ∧ safe = false ∧ others Node.key key d.queue ≠ []
  live : (∃ n ∈ gone, ¬ n.scanned now) ↔
    slab 0 = none ∧ safe = false ∧ ReachesLive now (others Node.key key d.queue) (roundsTaken slab 30 1)

/-- No two entries have the same key. -/
theorem Rep.apart (h : Rep z d) : d.queue.Pairwise fun a b => a.key ≠ b.key := by
  unfold Shctx.queue
  rw [pairwise_map]
  exact h.nodup.imp_of_mem fun ha hb hne hkey => hne (h.unique ha hb hkey)

theorem queue_addNode (h : Rep z d) (n : Node N) : (d.addNode z n).queue = n :: d.queue := by
  have hne : ∀ a ∈ d.lru_queue, a ≠ d.fresh := fun a ha => Nat.ne_of_lt (h.old a ha)
  unfold Shctx.queue Shctx.addNode
  dsimp only
  rw [map_cons, update_self]
  congr 1
  exact map_congr_left fun a ha => update_of_ne (hne a ha) ..

/-- Wherever the node went in the tree, it is in front of the queue. -/
theorem queue_addNode_setNode (h : Rep z d) (n n' : Node N) :
    ((d.addNode z n').setNode d.fresh n).queue = n :: d.queue := by
  have hsame : (d.addNode z n').setNode d.fresh n =
      { d.addNode z n with rbtree := (d.addNode z n').rbtree } := by
    unfold Shctx.addNode Shctx.setNode
    dsimp only
    rw [update_idem]
  rw [hsame]
  exact queue_addNode h n

theorem entry_cons_ne {n : Node N} {q : List (Node N)} {k : Bytes} (h : n.key ≠ k) :
    Lib.entry Node.key k (n :: q) = Lib.entry Node.key k q :=
  find?_cons_of_neg (by simpa using h)

/-- Where memory is asked for, room is made among the others. -/
theorem room_of_allocate {d₁ : Shctx N} (slab : Slab) (safe : Bool) (h : AsksAt z key d d₁) :
    ∃ left gone, others Node.key key d.queue = left ++ gone ∧ (d₁.allocate z now slab safe).2.2.queue = left ∧
      Rep z (d₁.allocate z now slab safe).2.2 ∧
      ∀ d', (∀ k, k ≠ key → d'.entry k = Lib.entry Node.key k left) →
        Room slab safe now key (d₁.allocate z now slab safe).2.1 d d' left gone := by
  obtain ⟨gone, hgone, hflag, hlive⟩ := @allocate_spec N z d₁ now h.rep slab safe
  have hapart := h.rep.apart
  rw [hgone.queue, pairwise_append] at hapart
  rw [h.queue] at hflag hlive
  have hsplit := hgone.queue
  rw [h.queue] at hsplit
  exact ⟨_, gone, hsplit, rfl, hgone.rep, fun d' hentry => ⟨hsplit, hapart.2.2, hentry, hflag, hlive⟩⟩

theorem storeInsert_room {d₁ : Shctx N} (slab : Slab) {op : StoreOp} {item : Item N} {value : Value N}
    (h : AsksAt z item.key d d₁) (hvalue : item.value = some value) :
    ∃ left gone, Room slab op.safe_store now item.key (d₁.storeInsert z now slab op item).1.forcible d
      (d₁.storeInsert z now slab op item).2 left gone := by
  obtain ⟨left, gone, -, hleft, hrep, hroom⟩ := @room_of_allocate N z d item.key now d₁ slab op.safe_store h
  refine ⟨left, gone, ?_⟩
  unfold Shctx.storeInsert
  rw [hvalue]
  dsimp only
  rcases hallocate : d₁.allocate z now slab op.safe_store with ⟨mem, forcible, d₂⟩
  rw [hallocate] at hleft hrep hroom
  cases mem with
  | none => exact hroom _ fun k _ => by rw [Shctx.entry, hleft]
  | some mem =>
    refine hroom _ fun k hk => ?_
    dsimp only
    rw [Shctx.entry, queue_addNode hrep, hleft]
    exact entry_cons_ne fun hkey => hk hkey.symm

theorem incrInsert_room {d₁ : Shctx N} (slab : Slab) (num : N) (h : AsksAt z key d d₁) :
    ∃ left gone, Room slab false now key (d₁.incrInsert z now slab key num).1.forcible d
      (d₁.incrInsert z now slab key num).2 left gone := by
  obtain ⟨left, gone, -, hleft, hrep, hroom⟩ := @room_of_allocate N z d key now d₁ slab false h
  refine ⟨left, gone, ?_⟩
  unfold Shctx.incrInsert
  rcases hallocate : d₁.allocate z now slab false with ⟨mem, forcible, d₂⟩
  rw [hallocate] at hleft hrep hroom
  cases mem with
  | none => exact hroom _ fun k _ => by rw [Shctx.entry, hleft]
  | some mem =>
    refine hroom _ fun k hk => ?_
    dsimp only
    rw [Shctx.entry, queue_addNode_setNode hrep, hleft]
    exact entry_cons_ne fun hkey => hk hkey.symm

/-! ## The flag -/

/-- The scan before an operation takes what has expired only. -/
theorem removed_iff (h : Rep z d) (d' : Shctx N) :
    (∃ n ∈ d.queue, n.key ≠ key ∧ ¬ n.scanned now ∧ d'.entry n.key = none) ↔
      ∃ n ∈ others Node.key key (d.scanned z now).queue, ¬ n.scanned now ∧ d'.entry n.key = none := by
  obtain ⟨gone, heq, hgone⟩ := (h.scan now).2
  constructor
  · rintro ⟨n, hn, hkey, hlive, hnone⟩
    rw [heq] at hn
    rcases mem_append.mp hn with hn | hn
    · exact ⟨n, mem_others.mpr ⟨hn, hkey⟩, hlive, hnone⟩
    · exact absurd (hgone n hn) hlive
  · rintro ⟨n, hn, hlive, hnone⟩
    obtain ⟨hin, hkey⟩ := mem_others.mp hn
    exact ⟨n, heq ▸ mem_append_left _ hin, hkey, hlive, hnone⟩

/-- An operation that leaves the others alone sets no flag. -/
theorem right_of_untouched {forcible : Bool} {o : Option (Node N)} (h : Rep z d) (hforcible : forcible = false)
    (hafter : After z False key (d.scanned z now) d' o) : ForcibleRight now key forcible d d' := by
  unfold ForcibleRight
  rw [removed_iff h, hforcible]
  refine iff_of_false Bool.false_ne_true ?_
  rintro ⟨n, hn, -, hnone⟩
  obtain ⟨hin, hkey⟩ := mem_others.mp hn
  rcases hafter.other hkey with hsame | ⟨-, hfalse⟩
  · rw [hsame] at hnone
    exact entry_eq_none.mp hnone n hin rfl
  · exact hfalse

/-- Where room is made, the flag is right if a live entry goes with the first. -/
theorem right_iff_of_room {safe : Bool} {forcible : Bool} {left gone : List (Node N)} (h : Rep z d)
    (hroom : Room slab safe now key forcible (d.scanned z now) d' left gone) :
    ForcibleRight now key forcible d d' ↔
      (safe = false → RoundsRight now slab (others Node.key key (d.scanned z now).queue)) := by
  have hremoved : (∃ n ∈ others Node.key key (d.scanned z now).queue, ¬ n.scanned now ∧ d'.entry n.key = none) ↔
      ∃ n ∈ gone, ¬ n.scanned now := by
    constructor
    · rintro ⟨n, hn, hlive, hnone⟩
      obtain ⟨-, hkey⟩ := mem_others.mp hn
      rw [hroom.entry _ hkey] at hnone
      rw [hroom.split] at hn
      rcases mem_append.mp hn with hn | hn
      · exact absurd rfl (entry_eq_none.mp hnone n hn)
      · exact ⟨n, hn, hlive⟩
    · rintro ⟨n, hn, hlive⟩
      have hin : n ∈ others Node.key key (d.scanned z now).queue := by
        rw [hroom.split]
        exact mem_append_right _ hn
      refine ⟨n, hin, hlive, ?_⟩
      rw [hroom.entry _ (mem_others.mp hin).2]
      exact entry_eq_none.mpr fun m hm => hroom.apart m hm n hn
  unfold ForcibleRight
  rw [removed_iff h, hremoved, hroom.flag, hroom.live]
  unfold RoundsRight ReachesLive
  by_cases hnil : others Node.key key (d.scanned z now).queue = []
  · simp [hnil]
  · cases safe <;> simp [hnil]

/-- When a store sets the right flag. -/
theorem store_forcible_iff (h : Rep z d) (slab : Slab) (op : StoreOp) (item : Item N) :
    ForcibleRight now item.key (d.store z now slab op item).1.forcible d (d.store z now slab op item).2 ↔
      (op.Asks now item ((d.scanned z now).entry item.key) → op.safe_store = false →
        RoundsRight now slab (others Node.key item.key (d.scanned z now).queue)) := by
  rcases store_cases slab op item (h.scan now).1 with ⟨hnot, hunforced, -, o, hafter⟩ | ⟨hasks, d₁, hat, heq⟩
  · exact iff_of_true (right_of_untouched h hunforced hafter) fun hasks => absurd hasks hnot
  · obtain ⟨-, value, hvalue, -⟩ := id hasks
    obtain ⟨left, gone, hroom⟩ := @storeInsert_room N z _ now d₁ slab op item value hat hvalue
    rw [heq, right_iff_of_room h hroom]
    exact ⟨fun h _ => h, fun h => h hasks⟩

theorem incr_forcible_iff [Add N] (h : Rep z d) (slab : Slab) (key : Bytes) (value : N) (init : Option N) :
    ForcibleRight now key (d.incr z now slab key value init).1.forcible d (d.incr z now slab key value init).2 ↔
      (init ≠ none → Inserts now ((d.scanned z now).entry key) →
        RoundsRight now slab (others Node.key key (d.scanned z now).queue)) := by
  rcases incr_cases slab key value init (h.scan now).1 with ⟨hnot, hunforced, -, o, hafter⟩ |
    ⟨⟨hinit, hinserts⟩, d₁, num, hat, heq⟩
  · exact iff_of_true (right_of_untouched h hunforced hafter) fun hinit hinserts => absurd ⟨hinit, hinserts⟩ hnot
  · obtain ⟨left, gone, hroom⟩ := @incrInsert_room N z _ key now d₁ slab num hat
    rw [heq, right_iff_of_room h hroom]
    exact ⟨fun h _ _ => h rfl, fun h _ => h hinit hinserts⟩

/-- **The flag is right exactly if no room is made, or no other entry is there, or the rounds it takes
go past the expired entries at the end**, for every store and every increment. -/
theorem forcible_right_iff [Add N] {s : State N} (h : Reached z s) (now : Nat) (slab : Slab) :
    (∀ op item, ForcibleRight now item.key (s.dict.store z now slab op item).1.forcible s.dict
        (s.dict.store z now slab op item).2 ↔
      (op.Asks now item ((s.dict.scanned z now).entry item.key) → op.safe_store = false →
        RoundsRight now slab (others Node.key item.key (s.dict.scanned z now).queue))) ∧
    ∀ key value init, ForcibleRight now key (s.dict.incr z now slab key value init).1.forcible s.dict
        (s.dict.incr z now slab key value init).2 ↔
      (init ≠ none → Inserts now ((s.dict.scanned z now).entry key) →
        RoundsRight now slab (others Node.key key (s.dict.scanned z now).queue)) :=
  ⟨store_forcible_iff h.sane.rep slab, incr_forcible_iff h.sane.rep slab⟩

/-- A fourth key. -/
def fourth : Item Int := { key := [100], value := some (.number 1), ttl := none, user_flags := 0 }

def plainStore : StoreOp := { add := false, replace := false, safe_store := false }

/-- With memory at once, nothing goes and no flag is set. -/
theorem forcible_right_fourth : ∃ s : State Int, Reached plainZone s ∧
    ForcibleRight 110 fourth.key (s.dict.store plainZone 110 (fun _ => some fun _ => 0) plainStore fourth).1.forcible
      s.dict (s.dict.store plainZone 110 (fun _ => some fun _ => 0) plainStore fourth).2 := by
  obtain ⟨s, -, hreached⟩ := reached_threeShort
  refine ⟨s, hreached, ((forcible_right_iff hreached 110 fun _ => some fun _ => 0).1 plainStore fourth).mpr ?_⟩
  intro _ _ hslab
  cases hslab

/-- No memory at first. -/
def shortAtFirst : Slab := fun i => if i = 0 then none else some fun _ => 0

/-- Three entries have expired; the scan takes two, and the third makes room. -/
theorem forcible_not_right : ¬ ∀ (s : State Int) (now : Nat) (slab : Slab) (op : StoreOp) (item : Item Int),
    Reached plainZone s → ForcibleRight now item.key (s.dict.store plainZone now slab op item).1.forcible s.dict
      (s.dict.store plainZone now slab op item).2 := by
  intro h
  obtain ⟨s, hrun, hreached⟩ := reached_threeShort
  have hright := h s 110 shortAtFirst plainStore fourth hreached
  have hgone : (run (step plainZone) { dict := .init fun _ => blankNode, now := 100 } threeShort).all
      (fun s => (s.dict.store plainZone 110 shortAtFirst plainStore fourth).1.forcible &&
        decide (∀ n ∈ s.dict.queue, n.scanned 110)) = true := by
    decide +kernel
  rw [hrun, Option.all_some, Bool.and_eq_true, decide_eq_true_eq] at hgone
  obtain ⟨n, hn, -, hlive, -⟩ := hright.mp hgone.1
  exact hlive (hgone.2 n hn)

end OpenResty.NgxLua.Shdict
