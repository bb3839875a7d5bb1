/-
Whether the operations of a shared dictionary agree on what has expired.

A lookup takes an entry for live up to the millisecond in which it expires, the scan, `flush_expired`
and `get_keys` up to the one before; and only the last two compare times as they are.
-/
import OpenResty.NgxLua.ShdictReached

namespace OpenResty.NgxLua.Shdict

open Lib Lib.Transition Option

variable {N : Type} {z : Zone} {d d' : Shctx N} {key : Bytes} {now : Nat} {n : Node N}

/-! ## The law -/

/-- `get` gives what is under the key: a value, or the message that it is a list. -/
def Shctx.Gets (z : Zone) (now : Nat) (d : Shctx N) (key : Bytes) : Prop := (d.get z now key false).1 ≠ .missing

/-- Neither `flush_expired` nor the scan before other operations removes the entry. -/
def Shctx.Stays (z : Zone) (now : Nat) (d : Shctx N) (key : Bytes) : Prop :=
  (∀ attempts, (d.flushExpired z now attempts).2.entry key = d.entry key) ∧
    (d.scanned z now).entry key = d.entry key

/-- The operations agree on which entries are expired. -/
structure ExpiryAgrees (z : Zone) (now : Nat) (d : Shctx N) : Prop where
  listed : ∀ key, d.Gets z now key ↔ key ∈ d.getKeys now 0
  stays : ∀ key, d.Gets z now key → d.Stays z now key ∧ (d.get z now key false).2.Stays z now key
  added : ∀ (op : StoreOp) item slab, op.add = true → op.replace = false →
    ((d.store z now slab op item).1 = .exists ↔ d.Gets z now item.key)

/-- The difference to the time of expiry is that of an `int64_t`. -/
def Node.Near (now : Nat) (n : Node N) : Prop :=
  n.expires ≠ 0 → n.expires < now + 2 ^ 63 ∧ now ≤ n.expires + 2 ^ 63

/-- All entries expire within 2^63 milliseconds, and what the scan leaves does not expire in this one. -/
structure Settled (z : Zone) (now : Nat) (d : Shctx N) : Prop where
  near : ∀ n ∈ d.queue, n.Near now
  edge : ∀ n ∈ (d.scanned z now).queue, n.expires ≠ 0 → n.expires ≠ now

instance (now : Nat) (n : Node N) : Decidable (n.Near now) := inferInstanceAs (Decidable (_ → _))

/-! ## The comparisons -/

/-- What `get_keys` lists. -/
def Node.Ahead (now : Nat) (n : Node N) : Prop := n.expires = 0 ∨ now < n.expires

theorem Node.Near.ms (h : n.Near now) (hne : n.expires ≠ 0) : n.ms now = n.expires - now := by
  obtain ⟨hfar, hpast⟩ := h hne
  unfold Node.ms int64
  rw [Int.emod_eq_of_lt (by omega) (by omega)]
  omega

/-- A lookup differs in the millisecond of expiry only. -/
theorem Node.Near.expired_iff (h : n.Near now) : n.expired now ↔ n.expires ≠ 0 ∧ n.expires < now := by
  unfold Node.expired
  refine and_congr_right fun hne => ?_
  rw [h.ms hne]
  omega

theorem Node.Near.scanned_iff (h : n.Near now) : n.scanned now ↔ ¬ n.Ahead now := by
  unfold Node.scanned Node.Ahead
  rw [not_or]
  refine and_congr_right fun hne => ?_
  rw [h.ms hne]
  omega

/-- Farther away, a lookup and `get_keys` say the opposite. -/
theorem not_near (h : ¬ n.Near now) (htime : n.expires < 2 ^ 64) (hnow : now < 2 ^ 64) :
    n.expires ≠ 0 ∧ (n.expired now ↔ n.Ahead now) := by
  unfold Node.Near at h
  obtain ⟨hne, hfar⟩ := Classical.not_imp.mp h
  refine ⟨hne, ?_⟩
  unfold Node.expired Node.Ahead Node.ms int64
  omega

/-! ## The operations -/

theorem fetch_ne_missing (stale : Bool) : n.fetch stale ≠ .missing := by
  unfold Node.fetch
  split
  · exact fun h => by cases h
  · split <;> exact fun h => by cases h
  · split <;> exact fun h => by cases h
  · exact fun h => by cases h

theorem gets_iff (h : Rep z d) : d.Gets z now key ↔ Live now ((d.scanned z now).entry key) := by
  obtain ⟨-, hfetched⟩ := @get_outcome N z d now False key false (h.scan now).1
  have hlooked : d.lookedUp z now false = d.scanned z now := rfl
  unfold Shctx.Gets
  rw [hfetched, hlooked]
  cases hentry : (d.scanned z now).entry key with
  | none =>
    refine iff_of_false (fun h => h rfl) (not_live_none rfl)
  | some n =>
    rw [live_iff rfl]
    unfold fetched
    dsimp only
    by_cases hexp : n.expired now
    · rw [if_pos hexp]
      exact iff_of_false (fun h => h rfl) (fun h => h hexp)
    · rw [if_neg hexp]
      exact iff_of_true (fetch_ne_missing false) hexp

theorem mem_getKeys (key : Bytes) : key ∈ d.getKeys now 0 ↔ ∃ n ∈ d.queue, n.Ahead now ∧ n.key = key := by
  unfold Shctx.getKeys Shctx.queue Node.Ahead
  simp [and_assoc]

/-- A new value finds the entry that `get` gives. -/
theorem added_iff (h : Rep z d) {op : StoreOp} (item : Item N) (slab : Slab) (hadd : op.add = true)
    (hreplace : op.replace = false) : (d.store z now slab op item).1 = .exists ↔ d.Gets z now item.key := by
  obtain ⟨o, -, hout⟩ := store_outcome slab op item (h.scan now).1
  have hdead : op.Writes now ((d.scanned z now).entry item.key) → ¬ Live now ((d.scanned z now).entry item.key) := by
    intro hwrites
    rw [StoreOp.Writes, hreplace] at hwrites
    exact hwrites hadd
  rw [gets_iff h]
  generalize (d.store z now slab op item).1 = r at hout ⊢
  cases hout with
  | «exists» _ hlive => exact iff_of_true rfl hlive
  | notFound hreplace' =>
    rw [hreplace] at hreplace'
    cases hreplace'
  | deleted hwrites => exact iff_of_false (fun h => by cases h) (hdead hwrites)
  | stored hwrites => exact iff_of_false (fun h => by cases h) (hdead hwrites)
  | noMemory hwrites => exact iff_of_false (fun h => by cases h) (hdead hwrites)

/-- An entry whose time lies ahead stays. -/
theorem stays_of_ahead (h : Rep z d) (hentry : d.entry key = some n) (hnear : n.Near now) (hahead : n.Ahead now) :
    d.Stays z now key := by
  have hn := mem_of_entry hentry
  have hkey := key_of_entry hentry
  refine ⟨fun attempts => ?_, ?_⟩
  · obtain ⟨hrep, -, hgone⟩ := flushExpired_outcome now h attempts
    rcases hgone n hn with hstays | ⟨hne, hle⟩
    · have hentry' := hrep.entry_of_mem hstays
      rw [hkey] at hentry'
      exact hentry'.trans hentry.symm
    · unfold Node.Ahead at hahead
      omega
  · rcases (h.scan now).2.entry Node.key key with hsame | ⟨-, m, hm, hgone⟩
    · exact hsame
    · obtain rfl : n = m := some.inj (hentry.symm.trans hm)
      exact absurd hahead (hnear.scanned_iff.mp hgone)

/-! ## When they agree -/

theorem agrees_of_settled (h : Sane z d) (hsettled : Settled z now d) : ExpiryAgrees z now d := by
  have hrep := h.rep
  have hscan := (hrep.scan now).2
  have hahead : ∀ n ∈ (d.scanned z now).queue, ¬ n.expired now → n.Ahead now := by
    intro n hn hlive
    rw [(hsettled.near n (hscan.mem hn)).expired_iff] at hlive
    have hedge := hsettled.edge n hn
    unfold Node.Ahead
    omega
  refine ⟨fun key => ?_, fun key hgets => ?_, fun op item slab hadd hreplace =>
    added_iff hrep item slab hadd hreplace⟩
  · rw [gets_iff hrep, mem_getKeys]
    constructor
    · rintro ⟨n, hentry, hlive⟩
      have hn := mem_of_entry hentry
      exact ⟨n, hscan.mem hn, hahead n hn hlive, key_of_entry hentry⟩
    · rintro ⟨n, hn, hlisted, rfl⟩
      have hnear := hsettled.near n hn
      have hlive : ¬ n.expired now := by
        rw [hnear.expired_iff]
        unfold Node.Ahead at hlisted
        omega
      refine ⟨n, ?_, hlive⟩
      exact (stays_of_ahead hrep (hrep.entry_of_mem hn) hnear hlisted).2.trans (hrep.entry_of_mem hn)
  · obtain ⟨n, hentry, hlive⟩ := (gets_iff hrep).mp hgets
    have hn := mem_of_entry hentry
    have hnear := hsettled.near n (hscan.mem hn)
    have hlisted := hahead n hn hlive
    obtain ⟨hafter, -⟩ := @get_outcome N z d now False key false (hrep.scan now).1
    have hentry' : (d.get z now key false).2.entry key = some n := hafter.entry.trans hentry
    have hbefore : d.entry key = some n := by
      have hin := hrep.entry_of_mem (hscan.mem hn)
      rwa [key_of_entry hentry] at hin
    exact ⟨stays_of_ahead hrep hbefore hnear hlisted, stays_of_ahead hafter.rep hentry' hnear hlisted⟩

/-- An entry is listed if and only if the scan leaves it and a lookup finds it live. -/
theorem ahead_iff (h : Rep z d) (hagrees : ExpiryAgrees z now d) (hn : n ∈ d.queue) :
    n.Ahead now ↔ n ∈ (d.scanned z now).queue ∧ ¬ n.expired now := by
  have hlisted := hagrees.listed n.key
  rw [gets_iff h, mem_getKeys] at hlisted
  have hscan := h.scan now
  constructor
  · intro hahead
    obtain ⟨m, hm, hlive⟩ := hlisted.mpr ⟨n, hn, hahead, rfl⟩
    have hin := mem_of_entry hm
    have hsame := h.entry_of_mem (hscan.2.mem hin)
    rw [key_of_entry hm, h.entry_of_mem hn] at hsame
    cases hsame
    exact ⟨hin, hlive⟩
  · rintro ⟨hin, hlive⟩
    obtain ⟨m, hm, hahead, hkey⟩ := hlisted.mp ⟨n, hscan.1.entry_of_mem hin, hlive⟩
    have hsame := h.entry_of_mem hm
    rw [hkey, h.entry_of_mem hn] at hsame
    cases hsame
    exact hahead

theorem settled_of_agrees (h : Sane z d) (hnow : now < 2 ^ 64) (hagrees : ExpiryAgrees z now d) :
    Settled z now d := by
  have hscan := (h.rep.scan now).2
  refine ⟨fun n hn => ?_, fun n hn hne hedge => ?_⟩
  · by_contra hfar
    obtain ⟨hne, hopposite⟩ := not_near hfar (h.times n hn) hnow
    have hahead := ahead_iff h.rep hagrees hn
    by_cases hexp : n.expired now
    · exact (hahead.mp (hopposite.mp hexp)).2 hexp
    · have hnot : ¬ n.Ahead now := fun hin => hexp (hopposite.mpr hin)
      obtain ⟨gone, heq, hgone⟩ := hscan
      rw [heq] at hn
      rcases List.mem_append.mp hn with hin | hin
      · exact hnot (hahead.mpr ⟨hin, hexp⟩)
      · -- it went in the millisecond of expiry, which is near
        have htime := h.times n (heq ▸ hn)
        obtain ⟨-, hms⟩ := hgone n hin
        refine hfar fun _ => ?_
        unfold Node.expired at hexp
        unfold Node.ms int64 at hexp hms
        omega
  · have hin := hscan.mem hn
    have hlive : ¬ n.expired now := by
      unfold Node.expired Node.ms int64
      omega
    have hahead := (ahead_iff h.rep hagrees hin).mpr ⟨hn, hlive⟩
    unfold Node.Ahead at hahead
    omega

/-- **The operations agree on what has expired exactly if all entries expire within 2^63 milliseconds
and no entry that the scan leaves expires in this millisecond.** -/
theorem expiry_agrees_iff [Add N] {s : State N} (h : Reached z s) (hnow : now < 2 ^ 64) :
    ExpiryAgrees z now s.dict ↔ Settled z now s.dict :=
  ⟨settled_of_agrees h.sane hnow, agrees_of_settled h.sane⟩

/-- After four milliseconds they agree. -/
theorem expiry_agrees_threeShort : ∃ s : State Int, Reached plainZone s ∧ ExpiryAgrees plainZone 104 s.dict := by
  obtain ⟨s, hrun, hreached⟩ := reached_threeShort
  have hsettled : (run (step plainZone) { dict := .init fun _ => blankNode, now := 100 } threeShort).all
      (fun s => decide (∀ n ∈ s.dict.queue, n.Near 104) &&
        decide (∀ n ∈ (s.dict.scanned plainZone 104).queue, n.expires ≠ 0 → n.expires ≠ 104)) = true := by
    decide +kernel
  rw [hrun, all_some, Bool.and_eq_true, decide_eq_true_eq, decide_eq_true_eq] at hsettled
  exact ⟨s, hreached, (expiry_agrees_iff hreached (by decide)).mpr ⟨hsettled.1, hsettled.2⟩⟩

/-- After five the last one is read, and not listed. -/
theorem expiry_disagrees : ¬ ∀ (s : State Int) (now : Nat), Reached plainZone s → now < 2 ^ 64 →
    ExpiryAgrees plainZone now s.dict := by
  intro h
  obtain ⟨s, hrun, hreached⟩ := reached_threeShort
  have hedge := (settled_of_agrees hreached.sane (by decide) (h s 105 hreached (by decide))).edge
  have hleft : (run (step plainZone) { dict := .init fun _ => blankNode, now := 100 } threeShort).all
      (fun s => decide (∃ n ∈ (s.dict.scanned plainZone 105).queue, n.expires = 105)) = true := by
    decide +kernel
  rw [hrun, all_some, decide_eq_true_eq] at hleft
  obtain ⟨n, hn, heq⟩ := hleft
  exact hedge n hn (by omega) heq

end OpenResty.NgxLua.Shdict
