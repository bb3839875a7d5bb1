/-
`resty.limit.req`: a leaky bucket for each key. How many calls it lets through
in a time, and what it keeps in the dictionary.

The record has room for whole thousandths of a request only. What is above
them is cut off at every call, so a bucket may leak a little more than its rate.
-/
import Mathlib.Data.List.Sort
import Mathlib.Data.Rat.Floor
import OpenResty.Resty.SharedDict

namespace OpenResty.Resty

open Lib List Nat Prod

/-- `struct lua_resty_limit_req_rec` -/
structure Rec where
  excess : Nat
  /-- time in milliseconds -/
  last : Nat
  deriving DecidableEq

/-- A string in a limiter's dictionary: the record that it is, if it has the
size, and the number that it reads as, if it is a numeral. -/
structure Text where
  record : Option Rec
  numeral : Option Rat
  deriving DecidableEq

def Rec.str (r : Rec) : Value Text := .string { record := some r, numeral := none }

/-- The value cast to a record; not if it is abused by other users. -/
def Value.rec? : Value Text → Option Rec
  | .string s => s.record
  | _ => none

@[simp] theorem Rec.rec?_str (r : Rec) : r.str.rec? = some r := rfl

/-- The errors that a limiter returns -/
inductive LimitError
  | rejected
  | abused
  | notFound
  | notANumber
  deriving DecidableEq

structure LimitReq where
  rate : Rat
  burst : Rat
  deriving DecidableEq

namespace LimitReq

/-- `nil` when the assertion fails -/
def new (rate burst : Rat) : Option LimitReq :=
  if 0 < rate ∧ 0 ≤ burst then some { rate := rate * 1000, burst := burst * 1000 } else none

/-- The excess with one more request, in thousandths. -/
def excess (self : LimitReq) (now : Nat) (r : Rec) : Rat :=
  let elapsed : Rat := now - r.last
  max (r.excess - self.rate * |elapsed| / 1000 + 1000) 0

/-- The delay, and the excess. -/
abbrev Answer := Except LimitError (Rat × Rat)

def pass (self : LimitReq) (now : Nat) (dict : Dict Text) (key : Bytes) (commit : Bool) (excess : Rat) :
    Answer × Dict Text :=
  let dict := if commit then dict.set key (some (Rec.str { excess := ⌊excess⌋₊, last := now })) else dict
  (.ok (excess / self.rate, excess / 1000), dict)

def incoming (self : LimitReq) (now : Nat) (dict : Dict Text) (key : Bytes) (commit : Bool) : Answer × Dict Text :=
  match dict key with
  | none => self.pass now dict key commit 0
  | some v =>
    match v.rec? with
    | none => (.error .abused, dict)
    | some r =>
      if self.burst < self.excess now r then (.error .rejected, dict)
      else self.pass now dict key commit (self.excess now r)

def uncommit (dict : Dict Text) (key : Bytes) : Except LimitError Unit × Dict Text :=
  match dict key with
  | none => (.error .notFound, dict)
  | some v =>
    match v.rec? with
    | none => (.error .abused, dict)
    | some r =>
      let excess := max ((r.excess : Rat) - 1000) 0
      (.ok (), dict.set key (some (Rec.str { r with excess := ⌊excess⌋₊ })))

/-! ## Calls in a row -/

/-- The dictionary after committed calls, each with its key and time. -/
def after (self : LimitReq) (dict : Dict Text) : List (Bytes × Nat) → Dict Text
  | [] => dict
  | (key, now) :: calls => self.after (self.incoming now dict key true).2 calls

/-- The times of the calls with `key` that are accepted. -/
def accepted (self : LimitReq) (key : Bytes) (dict : Dict Text) : List (Bytes × Nat) → List Nat
  | [] => []
  | (k, now) :: calls =>
    let (answer, dict) := self.incoming now dict k true
    if k = key ∧ answer.isOk then now :: self.accepted key dict calls else self.accepted key dict calls

/-- The calls from time `a` to time `b` -/
def within (a b : Nat) (times : List Nat) : List Nat := times.filter fun t => a ≤ t ∧ t ≤ b

variable {self : LimitReq} {dict : Dict Text} {key k : Bytes} {now : Nat} {calls : List (Bytes × Nat)} {r : Rec}
  {δ : Rat} {a b : Nat}

theorem incoming_other (h : key ≠ k) : (self.incoming now dict k true).2 key = dict key := by
  have hset : ∀ x, (self.pass now dict k true x).2 key = dict key := fun x => Dict.set_ne h
  unfold incoming
  split
  · exact hset 0
  · split
    · rfl
    · split
      · rfl
      · exact hset _

theorem incoming_first (self : LimitReq) (now : Nat) (h : dict key = none) :
    (self.incoming now dict key true).1.isOk = true ∧
      (self.incoming now dict key true).2 key = some (Rec.str { excess := 0, last := now }) := by
  unfold incoming
  rw [h]
  exact ⟨rfl, by simp [pass]⟩

/-- A call is rejected, or its excess fits and is recorded. -/
theorem incoming_again (now : Nat) (h : dict key = some r.str) :
    self.incoming now dict key true = (.error .rejected, dict) ∨
      self.excess now r ≤ self.burst ∧ (self.incoming now dict key true).1.isOk = true ∧
        (self.incoming now dict key true).2 key =
          some (Rec.str { excess := ⌊self.excess now r⌋₊, last := now }) := by
  unfold incoming
  rw [h]
  by_cases hover : self.burst < self.excess now r
  · left
    simp [hover]
  · right
    simp only [Rec.rec?_str, hover, if_false]
    exact ⟨le_of_not_gt hover, rfl, by simp [pass]⟩

/-! ## What is recorded -/

theorem excess_nonneg : 0 ≤ self.excess now r := le_max_right ..

theorem le_excess (self : LimitReq) (h : r.last ≤ now) :
    r.excess - self.rate / 1000 * (now - r.last) + 1000 ≤ self.excess now r := by
  refine le_trans (le_of_eq ?_) (le_max_left ..)
  have hlast : (r.last : Rat) ≤ now := by exact_mod_cast h
  rw [abs_of_nonneg (by linarith)]
  ring

theorem floor_excess_le : (⌊self.excess now r⌋₊ : Rat) ≤ self.excess now r := floor_le excess_nonneg

/-- No record loses more than `δ`. -/
def Cuts (self : LimitReq) (δ : Rat) : Prop :=
  ∀ r now, r.last ≤ now → self.excess now r - δ ≤ ⌊self.excess now r⌋₊

theorem cuts_one : self.Cuts 1 := fun _ _ _ => (sub_one_lt_floor _).le

/-- Nothing is cut off at a whole number of requests per second. -/
theorem cuts_zero {n : Nat} (h : self.rate = n * 1000) : self.Cuts 0 := by
  intro r now hlast
  have hwhole : self.excess now r = ((max ((r.excess : Int) - n * (now - r.last) + 1000) 0).toNat : Nat) := by
    have hle : (0 : Rat) ≤ now - r.last := sub_nonneg.mpr (by exact_mod_cast hlast)
    have hcast := congrArg (Int.cast (R := Rat))
      (Int.toNat_of_nonneg (le_max_right ((r.excess : Int) - n * (now - r.last) + 1000) 0))
    unfold excess
    dsimp only
    rw [abs_of_nonneg hle, h]
    push_cast at hcast ⊢
    rw [hcast]
    congr 1
    ring
  rw [hwhole, Nat.floor_natCast, sub_zero]

/-- The record of a key: none yet, or one with an excess up to the burst. -/
def Bucket (self : LimitReq) (dict : Dict Text) (key : Bytes) (now : Nat) : Prop :=
  dict key = none ∨ ∃ r : Rec, dict key = some r.str ∧ (r.excess : Rat) ≤ self.burst ∧ r.last ≤ now

theorem Bucket.incoming (hburst : 0 ≤ self.burst) (h : self.Bucket dict key now) :
    self.Bucket (self.incoming now dict k true).2 key now := by
  by_cases hk : key = k
  · subst hk
    rcases h with hnone | ⟨r, hr, hexcess, hlast⟩
    · exact .inr ⟨_, (incoming_first _ _ hnone).2, by simpa using hburst, le_refl _⟩
    · rcases incoming_again _ hr with hrejected | ⟨hfits, -, hset⟩
      · rw [hrejected]
        exact .inr ⟨r, hr, hexcess, hlast⟩
      · exact .inr ⟨_, hset, floor_excess_le.trans hfits, le_refl _⟩
  · unfold Bucket
    rw [incoming_other hk]
    exact h

theorem Bucket.mono (h : self.Bucket dict key a) (hab : a ≤ b) : self.Bucket dict key b :=
  h.imp_right fun ⟨r, hr, hexcess, hlast⟩ => ⟨r, hr, hexcess, hlast.trans hab⟩

/-- The run lemma: every record fits. -/
theorem Bucket.after (hburst : 0 ≤ self.burst) (h : self.Bucket dict key now)
    (hsorted : (now :: calls.map snd).Pairwise (· ≤ ·)) :
    ∃ now', self.Bucket (self.after dict calls) key now' := by
  induction calls generalizing dict now with
  | nil => exact ⟨now, h⟩
  | cons call calls ih =>
    obtain ⟨hfirst, hrest⟩ := pairwise_cons.mp hsorted
    exact ih ((h.mono (hfirst _ mem_cons_self)).incoming hburst) hrest

/-! ## How many calls are accepted -/

theorem accepted_call (k : Bytes) (now : Nat) (calls : List (Bytes × Nat)) :
    self.accepted key dict ((k, now) :: calls) =
      if k = key ∧ (self.incoming now dict k true).1.isOk then
        now :: self.accepted key (self.incoming now dict k true).2 calls
      else self.accepted key (self.incoming now dict k true).2 calls := rfl

theorem accepted_other (h : key ≠ k) :
    self.accepted key dict ((k, now) :: calls) = self.accepted key (self.incoming now dict k true).2 calls := by
  rw [accepted_call]
  exact if_neg fun hk => h hk.1.symm

theorem accepted_rejected (h : self.incoming now dict key true = (.error .rejected, dict)) :
    self.accepted key dict ((key, now) :: calls) = self.accepted key dict calls := by
  rw [accepted_call, h]
  exact if_neg fun hok => Bool.noConfusion hok.2

theorem accepted_ok (h : (self.incoming now dict key true).1.isOk = true) :
    self.accepted key dict ((key, now) :: calls) = now :: self.accepted key
      (self.incoming now dict key true).2 calls := by
  rw [accepted_call]
  exact if_pos ⟨rfl, h⟩

theorem accepted_times {t : Nat} (h : t ∈ self.accepted key dict calls) : t ∈ calls.map snd := by
  induction calls generalizing dict with
  | nil => exact h
  | cons call calls ih =>
    rw [accepted_call] at h
    split at h
    · rcases mem_cons.mp h with heq | hrest
      · exact heq ▸ mem_cons_self
      · exact mem_cons_of_mem _ (ih hrest)
    · exact mem_cons_of_mem _ (ih h)

theorem within_nil {times : List Nat} (h : ∀ t ∈ times, b < t) : within a b times = [] :=
  filter_eq_nil_iff.mpr fun t ht => by
    have hlt := h t ht
    simp only [decide_eq_true_eq]
    omega

/-- Of the calls after a record, up to time `b`, each adds a request to its
excess, less what leaks and what is cut off. -/
theorem filled (hδ : self.Cuts δ) (hrate : 0 ≤ self.rate) (h : dict key = some r.str) (ha : a ≤ r.last)
    (hsorted : (r.last :: calls.map snd).Pairwise (· ≤ ·))
    (hn : within a b (self.accepted key dict calls) ≠ []) :
    r.excess + (1000 - δ) * ((within a b (self.accepted key dict calls)).length - 1) + 1000 ≤
      self.burst + self.rate / 1000 * (b - r.last) := by
  induction calls generalizing dict r with
  | nil => exact absurd rfl hn
  | cons call calls ih =>
    obtain ⟨k, now⟩ := call
    obtain ⟨hlater, hrest⟩ := pairwise_cons.mp hsorted
    have hlast : r.last ≤ now := hlater _ mem_cons_self
    have hskip : (r.last :: calls.map snd).Pairwise (· ≤ ·) :=
      pairwise_cons.mpr ⟨fun t ht => hlater t (mem_cons_of_mem _ ht), (pairwise_cons.mp hrest).2⟩
    by_cases hk : key = k
    · subst hk
      rcases incoming_again _ h with hrejected | ⟨hfits, hok, hset⟩
      · rw [accepted_rejected hrejected] at hn ⊢
        exact ih h ha hskip hn
      · rw [accepted_ok hok] at hn ⊢
        by_cases hb : now ≤ b
        · have hsplit : ∀ times, within a b (now :: times) = now :: within a b times := fun times =>
            filter_cons_of_pos (by simpa using ⟨ha.trans hlast, hb⟩)
          rw [hsplit, length_cons]
          have hadded := le_excess self hlast
          have hcut := hδ r now hlast
          have hleak : 0 ≤ self.rate / 1000 * (b - now) :=
            mul_nonneg (by linarith) (sub_nonneg.mpr (by exact_mod_cast hb))
          by_cases hnil : within a b (self.accepted key (self.incoming now dict key true).2 calls) = []
          · rw [hnil]
            push_cast [length_nil]
            linarith
          · have hnext := ih hset (ha.trans hlast) hrest hnil
            push_cast
            linarith
        · refine absurd (within_nil fun t ht => ?_) hn
          have hlt : b < now := Nat.lt_of_not_le hb
          rcases mem_cons.mp ht with heq | ht
          · exact heq ▸ hlt
          · exact hlt.trans_le ((pairwise_cons.mp hrest).1 t (accepted_times ht))
    · rw [accepted_other hk] at hn ⊢
      exact ih ((incoming_other hk).trans h) ha hskip hn

/-- A call is not accepted, or the key has its record then. -/
theorem accepted_cons (k : Bytes) (now : Nat) (calls : List (Bytes × Nat)) (h : self.Bucket dict key a) :
    self.accepted key dict ((k, now) :: calls) = self.accepted key (self.incoming now dict k true).2 calls ∨
      self.accepted key dict ((k, now) :: calls) = now :: self.accepted key (self.incoming now dict k true).2 calls ∧
        ∃ r : Rec, (self.incoming now dict k true).2 key = some r.str ∧ r.last = now := by
  by_cases hk : key = k
  · subst hk
    rcases h with hnone | ⟨r, hr, -⟩
    · obtain ⟨hok, hset⟩ := incoming_first self now hnone
      exact .inr ⟨accepted_ok hok, _, hset, rfl⟩
    · rcases incoming_again now hr with hrejected | ⟨-, hok, hset⟩
      · exact .inl (by rw [accepted_rejected hrejected, hrejected])
      · exact .inr ⟨accepted_ok hok, _, hset, rfl⟩
  · exact .inl (accepted_other hk)

/-- The calls accepted in a time, by what each of them adds. -/
theorem window (hδ : self.Cuts δ) (hδ' : 0 ≤ δ ∧ δ ≤ 1000) (hrate : 0 ≤ self.rate) (hburst : 0 ≤ self.burst)
    (h : self.Bucket dict key now) (hsorted : (now :: calls.map snd).Pairwise (· ≤ ·)) (T : Nat) :
    (1000 - δ) * ((within a (a + T) (self.accepted key dict calls)).length - 1) ≤ self.burst +
      self.rate / 1000 * T := by
  have hleak : 0 ≤ self.rate / 1000 * T := mul_nonneg (by linarith) (cast_nonneg T)
  induction calls generalizing dict now with
  | nil =>
    change (1000 - δ) * ((([] : List Nat).length : Rat) - 1) ≤ _
    rw [length_nil]
    push_cast
    linarith
  | cons call calls ih =>
    obtain ⟨k, now'⟩ := call
    obtain ⟨hlater, hrest⟩ := pairwise_cons.mp hsorted
    have hnext := ih ((h.mono (hlater _ mem_cons_self)).incoming (k := k) hburst) hrest
    rcases accepted_cons k now' calls h with hsame | ⟨hmore, r, hr, hlast⟩
    · rw [hsame]
      exact hnext
    · rw [hmore]
      by_cases hin : a ≤ now' ∧ now' ≤ a + T
      · -- the first call of the window
        have hsplit : ∀ times, within a (a + T) (now' :: times) = now' :: within a (a + T) times := fun times =>
          filter_cons_of_pos (by simpa using hin)
        rw [hsplit, length_cons]
        by_cases hnil : within a (a + T) (self.accepted key (self.incoming now' dict k true).2 calls) = []
        · rw [hnil]
          push_cast [length_nil]
          linarith
        · have hfilled := filled hδ hrate hr (hlast ▸ hin.1) (hlast ▸ hrest) hnil
          have hstart : 0 ≤ self.rate / 1000 * (r.last - a) :=
            mul_nonneg (by linarith) (sub_nonneg.mpr (by exact_mod_cast hlast ▸ hin.1))
          have hexcess : (0 : Rat) ≤ r.excess := cast_nonneg _
          push_cast at hfilled ⊢
          linarith
      · have hsplit : ∀ times, within a (a + T) (now' :: times) = within a (a + T) times := fun times =>
          filter_cons_of_neg (by simpa using hin)
        rw [hsplit]
        exact hnext

/-- In every run, a key has no more calls accepted in a time than its rate and
burst allow and what was cut off of its records, a thousandth of a request for
each call but the first; at a whole rate nothing is cut off. No excess is above
the burst. -/
theorem accepted_bounded {rate burst : Rat} (hnew : new rate burst = some self) (hkey : dict key = none)
    (hsorted : (calls.map snd).Pairwise (· ≤ ·)) :
    (∀ a T : Nat,
      let n := (within a (a + T) (self.accepted key dict calls)).length
      (n : Rat) ≤ 1 + burst + rate * T / 1000 + ((n : Rat) - 1) / 1000 ∧
        ((∃ m : Nat, rate = m) → (n : Rat) ≤ 1 + burst + rate * T / 1000)) ∧
      ∀ v, self.after dict calls key = some v → ∃ r : Rec, v = r.str ∧ 0 ≤ (r.excess : Rat) ∧
        (r.excess : Rat) ≤ self.burst := by
  unfold new at hnew
  split at hnew
  · next hassert =>
    obtain ⟨hrate, hburst⟩ := hassert
    have hself := Option.some.inj hnew
    have hrate' : self.rate = rate * 1000 := by rw [← hself]
    have hburst' : self.burst = burst * 1000 := by rw [← hself]
    have hbucket : self.Bucket dict key 0 := .inl hkey
    have hordered : (0 :: calls.map snd).Pairwise (· ≤ ·) :=
      pairwise_cons.mpr ⟨fun _ _ => Nat.zero_le _, hsorted⟩
    have hrate0 : 0 ≤ self.rate := by linarith
    have hburst0 : 0 ≤ self.burst := by linarith
    refine ⟨fun a T => ⟨?_, ?_⟩, fun v hv => ?_⟩
    · have hwindow := window (a := a) cuts_one (by norm_num) hrate0 hburst0 hbucket hordered T
      rw [hrate', hburst'] at hwindow
      linarith
    · rintro ⟨m, hm⟩
      have hcuts : self.Cuts 0 := cuts_zero (hrate'.trans (by rw [hm]))
      have hwindow := window (a := a) hcuts (by norm_num) hrate0 hburst0 hbucket hordered T
      rw [hrate', hburst'] at hwindow
      linarith
    · obtain ⟨now, hnone | ⟨r, hr, hexcess, -⟩⟩ := hbucket.after hburst0 hordered
      · cases hnone.symm.trans hv
      · exact ⟨r, Option.some.inj (hv.symm.trans hr), cast_nonneg _, hexcess⟩
  · cases hnew

theorem accepted_bounded_twoCalls :
    ((within 0 (0 + 1000) (accepted { rate := 2000, burst := 0 } [97] Dict.empty [([97], 0), ([97], 500)])).length : Rat) ≤
      1 + 0 + 2 * (1000 : Nat) / 1000 :=
  have hnew : new 2 0 = some { rate := 2000, burst := 0 } := by decide +kernel
  have hsorted : (([([97], 0), ([97], 500)] : List (Bytes × Nat)).map snd).Pairwise (· ≤ ·) := by decide
  ((accepted_bounded hnew rfl hsorted).1 0 1000).2 ⟨2, rfl⟩

/-- Three calls in two milliseconds, where 2.999002 are to be allowed. -/
theorem not_bounded_slow :
    ¬ ∀ (rate burst : Rat) (self : LimitReq), new rate burst = some self →
      ∀ (key : Bytes) (calls : List (Bytes × Nat)),
      (calls.map snd).Pairwise (· ≤ ·) → ∀ a T : Nat,
        ((within a (a + T) (self.accepted key Dict.empty calls)).length : Rat) ≤ 1 + burst + rate * T / 1000 := by
  intro h
  have hbound := h (1 / 1000) (1999 / 1000) { rate := 1, burst := 1999 } (by decide +kernel) [97]
    [([97], 0), ([97], 1), ([97], 2)] (by decide) 0 2
  have hlen : (within 0 (0 + 2) (accepted { rate := 1, burst := 1999 } [97] Dict.empty
    [([97], 0), ([97], 1), ([97], 2)])).length = 3 := by decide +kernel
  rw [hlen] at hbound
  norm_num at hbound

end LimitReq

end OpenResty.Resty
