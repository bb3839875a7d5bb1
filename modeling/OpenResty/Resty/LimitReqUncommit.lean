/-
What `uncommit` undoes of a committed call. It takes the request off again but
leaves the time of the call in the record, and the record itself where there
was none: what the bucket had leaked below empty up to the call is lost, and so
is what was cut off of the excess.
-/
import OpenResty.Resty.LimitReq

namespace OpenResty.Resty.LimitReq

open Lib Option Function

/-- A call of `incoming` -/
structure Call where
  key : Bytes
  now : Nat
  commit : Bool

/-- What calls in a row are answered. -/
def answers (self : LimitReq) (dict : Dict Text) : List Call → List Answer
  | [] => []
  | c :: calls =>
    let (answer, dict) := self.incoming c.now dict c.key c.commit
    answer :: self.answers dict calls

/-- The calls at `now` or later cannot tell the dictionaries apart. -/
def SameFrom (self : LimitReq) (now : Nat) (d d' : Dict Text) : Prop :=
  ∀ calls : List Call, (∀ c ∈ calls, now ≤ c.now) → self.answers d calls = self.answers d' calls

/-- A committed call, and `uncommit` after it. -/
def undone (self : LimitReq) (now : Nat) (dict : Dict Text) (key : Bytes) : Dict Text :=
  (uncommit (self.incoming now dict key true).2 key).2

theorem rate_pos_of_new {self : LimitReq} {rate burst : Rat} (h : new rate burst = some self) : 0 < self.rate := by
  unfold new at h
  split at h
  · next hassert =>
    cases h
    exact mul_pos hassert.1 (by norm_num)
  · cases h

/-! ## The excess of a call -/

/-- The excess that a call comes to, from what is stored. -/
def outcome (self : LimitReq) (now : Nat) : Option (Value Text) → Except LimitError Rat
  | none => .ok 0
  | some v =>
    match v.rec? with
    | none => .error .abused
    | some r => if self.burst < self.excess now r then .error .rejected else .ok (self.excess now r)

variable {self : LimitReq} {dict : Dict Text} {key k : Bytes} {now t : Nat} {r : Rec} {x : Rat} {n : Nat}

theorem incoming_eq (self : LimitReq) (t : Nat) (dict : Dict Text) (k : Bytes) (commit : Bool) :
    self.incoming t dict k commit =
      match self.outcome t (dict k) with
      | .error e => (.error e, dict)
      | .ok x => self.pass t dict k commit x := by
  unfold incoming outcome
  cases dict k with
  | none => rfl
  | some v =>
    dsimp only
    cases v.rec? with
    | none => rfl
    | some r =>
      dsimp only
      by_cases hover : self.burst < self.excess t r
      · rw [if_pos hover, if_pos hover]
      · rw [if_neg hover, if_neg hover]

theorem incoming_error {e : LimitError} (commit : Bool) (h : self.outcome t (dict k) = .error e) :
    self.incoming t dict k commit = (.error e, dict) := by rw [incoming_eq, h]

theorem incoming_ok (commit : Bool) (h : self.outcome t (dict k) = .ok x) :
    self.incoming t dict k commit = self.pass t dict k commit x := by rw [incoming_eq, h]

theorem outcome_none : self.outcome now none = .ok 0 := rfl

theorem outcome_rec {v : Value Text} (h : v.rec? = some r) :
    self.outcome now (some v) =
      if self.burst < self.excess now r then .error .rejected else .ok (self.excess now r) := by
  unfold outcome
  dsimp only
  rw [h]

/-- The record that is left. -/
theorem undone_eq (h : self.outcome now (dict key) = .ok x) :
    self.undone now dict key = dict.set key (some (Rec.str { excess := ⌊x⌋₊ - 1000, last := now })) := by
  have hstored : (self.incoming now dict key true).2 =
      dict.set key (some (Rec.str { excess := ⌊x⌋₊, last := now })) := by
    rw [incoming_ok true h]
    rfl
  have hexcess : max ((⌊x⌋₊ : Rat) - 1000) 0 = (⌊x⌋₊ - 1000 : Nat) := by
    rcases Nat.le_total 1000 ⌊x⌋₊ with hle | hle
    · have hle' : (1000 : Rat) ≤ ⌊x⌋₊ := by exact_mod_cast hle
      rw [max_eq_left (sub_nonneg.mpr hle'), Nat.cast_sub hle]
      rfl
    · have hle' : (⌊x⌋₊ : Rat) ≤ 1000 := by exact_mod_cast hle
      rw [max_eq_right (sub_nonpos.mpr hle'), Nat.sub_eq_zero_of_le hle]
      rfl
  rw [undone, hstored, uncommit, Dict.set_self]
  dsimp only [Rec.rec?_str]
  rw [hexcess, Nat.floor_natCast]
  exact update_idem ..

/-! ## Records that calls cannot tell apart -/

/-- What has leaked when the call comes has leaked before it and since. -/
theorem excess_moved (hlast : r.last ≤ now) (hn : (r.excess : Rat) - self.rate * (now - r.last) / 1000 = n)
    (ht : now ≤ t) : self.excess t { excess := n, last := now } = self.excess t r := by
  have hnow : (r.last : Rat) ≤ now := by exact_mod_cast hlast
  have htime : (now : Rat) ≤ t := by exact_mod_cast ht
  unfold excess
  dsimp only
  rw [abs_of_nonneg (sub_nonneg.mpr htime), abs_of_nonneg (sub_nonneg.mpr (hnow.trans htime)), ← hn]
  congr 1
  ring

theorem sameFrom_moved (hr : (dict key).bind Value.rec? = some r) (hlast : r.last ≤ now)
    (hn : (r.excess : Rat) - self.rate * (now - r.last) / 1000 = n) :
    self.SameFrom now (dict.set key (some (Rec.str { excess := n, last := now }))) dict := by
  intro calls
  induction calls generalizing dict with
  | nil => exact fun _ => rfl
  | cons c calls ih =>
    intro hlater
    have htime := hlater c List.mem_cons_self
    have hrest : ∀ c' ∈ calls, now ≤ c'.now := fun c' hc' => hlater c' (List.mem_cons_of_mem _ hc')
    have houtcome : self.outcome c.now (dict.set key (some (Rec.str { excess := n, last := now })) c.key) =
        self.outcome c.now (dict c.key) := by
      by_cases hk : c.key = key
      · obtain ⟨v, hv, hvr⟩ := bind_eq_some_iff.mp hr
        rw [hk, Dict.set_self, hv, outcome_rec hvr, outcome_rec (Rec.rec?_str _), excess_moved hlast hn htime]
      · rw [Dict.set_ne hk]
    cases ho : self.outcome c.now (dict c.key) with
    | error e =>
      rw [answers, answers, incoming_error _ ho, incoming_error _ (houtcome.trans ho)]
      exact congrArg (_ :: ·) (ih hr hrest)
    | ok x =>
      rw [answers, answers, incoming_ok _ ho, incoming_ok _ (houtcome.trans ho)]
      refine congrArg (_ :: ·) ?_
      cases c.commit with
      | false => exact ih hr hrest
      | true =>
        by_cases hk : c.key = key
        · -- the call writes over the record
          rw [hk]
          exact congrArg (self.answers · calls) (update_idem ..)
        · have hr' : ((dict.set c.key (some (Rec.str { excess := ⌊x⌋₊, last := c.now }))) key).bind Value.rec? =
              some r := by
            rw [Dict.set_ne (Ne.symm hk)]
            exact hr
          refine Eq.trans ?_ (ih hr' hrest)
          exact congrArg (self.answers · calls) (update_comm (Ne.symm hk) ..)

/-! ## Records that the next call tells apart -/

/-- The answer to one call that commits nothing. -/
theorem answer_same {d d' : Dict Text} (h : self.SameFrom now d d') (ht : now ≤ t) (k : Bytes) :
    (self.incoming t d k false).1 = (self.incoming t d' k false).1 := by
  have hone := h [{ key := k, now := t, commit := false }] (by simpa using ht)
  exact (List.cons.inj hone).1

theorem outcome_same {d d' : Dict Text} (h : self.SameFrom now d d') (ht : now ≤ t)
    (ho : self.outcome t (d k) = .ok x) : self.outcome t (d' k) = .ok x := by
  have hanswer := answer_same h ht k
  rw [incoming_ok _ ho] at hanswer
  cases ho' : self.outcome t (d' k) with
  | error e =>
    rw [incoming_error _ ho'] at hanswer
    cases hanswer
  | ok y =>
    rw [incoming_ok _ ho'] at hanswer
    have hxy : x / 1000 = y / 1000 := (Prod.mk.inj (Except.ok.inj hanswer)).2
    rw [div_left_inj' (by norm_num)] at hxy
    rw [hxy]

theorem outcome_ok_rec {v : Value Text} (hv : v.rec? = some r) (h : self.outcome t (some v) = .ok x) :
    x = self.excess t r ∧ x ≤ self.burst := by
  rw [outcome_rec hv] at h
  split at h
  · cases h
  · next hover =>
    cases h
    exact ⟨rfl, le_of_not_gt hover⟩

theorem outcome_of_isOk (h : (self.incoming now dict key true).1.isOk = true) :
    ∃ x, self.outcome now (dict key) = .ok x := by
  cases ho : self.outcome now (dict key) with
  | error e =>
    rw [incoming_error _ ho] at h
    cases h
  | ok x => exact ⟨x, rfl⟩

/-- The record that is left has one request more for the next call. -/
theorem excess_now (n now : Nat) : self.excess now { excess := n, last := now } = n + 1000 := by
  unfold excess
  dsimp only
  rw [sub_self, abs_zero, mul_zero, zero_div, sub_zero]
  exact max_eq_left (by positivity)

/-- A call at the same time tells them apart, unless the record had nothing but whole thousandths left. -/
theorem left_of_same (ho : self.outcome now (dict key) = .ok x)
    (h : self.SameFrom now (dict.set key (some (Rec.str { excess := n, last := now }))) dict) :
    x = n + 1000 ∧ ∃ r : Rec, (dict key).bind Value.rec? = some r ∧
      (r.excess : Rat) - self.rate * |(now : Rat) - r.last| / 1000 = n := by
  have hafter := outcome_same (fun calls hcalls => (h calls hcalls).symm) (le_refl now) ho
  rw [Dict.set_self] at hafter
  have hx : x = n + 1000 := (outcome_ok_rec (Rec.rec?_str _) hafter).1.trans (excess_now n now)
  have hpos : (0 : Rat) < x := by
    rw [hx]
    positivity
  refine ⟨hx, ?_⟩
  cases hv : dict key with
  | none =>
    rw [hv, outcome_none] at ho
    cases ho
    exact absurd hpos (lt_irrefl 0)
  | some v =>
    rw [hv] at ho
    cases hr : v.rec? with
    | none =>
      unfold outcome at ho
      dsimp only at ho
      rw [hr] at ho
      cases ho
    | some r =>
      refine ⟨r, hr, ?_⟩
      have hexcess := (outcome_ok_rec hr ho).1
      unfold excess at hexcess
      dsimp only at hexcess
      rcases le_total 0 ((r.excess : Rat) - self.rate * |(now : Rat) - r.last| / 1000 + 1000) with hle | hle
      · rw [max_eq_left hle] at hexcess
        linarith
      · rw [max_eq_right hle] at hexcess
        linarith

/-- A call a millisecond later tells them apart where the record is of a later time. -/
theorem last_le_of_same (hrate : 0 < self.rate) (hfits : (n : Rat) + 1000 ≤ self.burst)
    (h : self.SameFrom now (dict.set key (some (Rec.str { excess := n, last := now }))) dict)
    (hr : (dict key).bind Value.rec? = some r)
    (hn : (r.excess : Rat) - self.rate * |(now : Rat) - r.last| / 1000 = n) : r.last ≤ now := by
  by_contra hlater
  have hlast : (now : Rat) + 1 ≤ r.last := by exact_mod_cast Nat.lt_of_not_le hlater
  have hexcess : self.excess (now + 1) { excess := n, last := now } ≤ n + 1000 := by
    unfold excess
    dsimp only
    refine max_le ?_ (by positivity)
    have hleak : 0 ≤ self.rate * |((now + 1 : Nat) : Rat) - now| / 1000 := by positivity
    linarith
  have hleft : self.outcome (now + 1) (dict.set key (some (Rec.str { excess := n, last := now })) key) =
      .ok (self.excess (now + 1) { excess := n, last := now }) := by
    rw [Dict.set_self, outcome_rec (Rec.rec?_str _), if_neg (not_lt.mpr (hexcess.trans hfits))]
  have hbefore := outcome_same h (Nat.le_succ now) hleft
  obtain ⟨v, hv, hvr⟩ := bind_eq_some_iff.mp hr
  rw [hv] at hbefore
  have hsame := (outcome_ok_rec hvr hbefore).1
  rw [hsame] at hexcess
  have hmore : (r.excess : Rat) - self.rate * |((now + 1 : Nat) : Rat) - r.last| / 1000 + 1000 ≤
      self.excess (now + 1) r := le_max_left ..
  push_cast at hmore
  rw [abs_of_nonpos (by linarith)] at hn hmore
  have hgap : self.rate * (-((now : Rat) - r.last)) / 1000 - self.rate * (-((now : Rat) + 1 - r.last)) / 1000 =
      self.rate / 1000 := by ring
  linarith

/-- **A committed call and `uncommit` at the same time leave what calls cannot
tell apart, exactly when the record is no later than the call and what is left
of its excess by then is a whole number of thousandths, not below zero.** -/
theorem uncommit_undoes_iff {rate burst : Rat} (hnew : new rate burst = some self) (dict : Dict Text) (key : Bytes)
    (now : Nat) (hok : (self.incoming now dict key true).1.isOk = true) :
    self.SameFrom now (self.undone now dict key) dict ↔
      ∃ r : Rec, (dict key).bind Value.rec? = some r ∧ r.last ≤ now ∧
        ∃ n : Nat, (r.excess : Rat) - self.rate * (now - r.last) / 1000 = n := by
  obtain ⟨x, ho⟩ := outcome_of_isOk hok
  rw [undone_eq ho]
  constructor
  · intro h
    obtain ⟨hx, r, hr, hn⟩ := left_of_same ho h
    have hrate : 0 < self.rate := rate_pos_of_new hnew
    obtain ⟨v, hv, hvr⟩ := bind_eq_some_iff.mp hr
    rw [hv] at ho
    have hfits := (outcome_ok_rec hvr ho).2
    rw [hx] at hfits
    have hlast := last_le_of_same hrate hfits h hr hn
    have htime : (r.last : Rat) ≤ now := by exact_mod_cast hlast
    rw [abs_of_nonneg (sub_nonneg.mpr htime)] at hn
    exact ⟨r, hr, hlast, _, hn⟩
  · rintro ⟨r, hr, hlast, n, hn⟩
    obtain ⟨v, hv, hvr⟩ := bind_eq_some_iff.mp hr
    rw [hv] at ho
    have hx : x = (n + 1000 : Nat) := by
      rw [(outcome_ok_rec hvr ho).1, ← excess_moved hlast hn (le_refl now), excess_now]
      push_cast
      rfl
    rw [hx, Nat.floor_natCast, Nat.add_sub_cancel]
    exact sameFrom_moved hr hlast hn

theorem uncommit_undoes_inTime :
    SameFrom { rate := 2000, burst := 2000 } 100
      (undone { rate := 2000, burst := 2000 } 100
        (Dict.empty.set [97] (some (Rec.str { excess := 500, last := 0 }))) [97])
      (Dict.empty.set [97] (some (Rec.str { excess := 500, last := 0 }))) :=
  have hnew : new 2 2 = some { rate := 2000, burst := 2000 } := by decide +kernel
  (uncommit_undoes_iff hnew _ _ _ (by decide +kernel)).mpr
    ⟨{ excess := 500, last := 0 }, rfl, by decide, 300, by norm_num⟩

/-- A first request: the record that is left makes the next request at the same time wait. -/
theorem uncommit_not_undone :
    ¬ ∀ (rate burst : Rat) (self : LimitReq), new rate burst = some self →
      ∀ (dict : Dict Text) (key : Bytes) (now : Nat), (self.incoming now dict key true).1.isOk = true →
        self.SameFrom now (self.undone now dict key) dict := by
  intro h
  have hsame := h 40 40 { rate := 40000, burst := 40000 } (by decide +kernel) Dict.empty [97] 0 rfl
  rw [undone_eq outcome_none] at hsame
  have hzero := (left_of_same outcome_none hsame).1
  norm_num at hzero

end OpenResty.Resty.LimitReq
