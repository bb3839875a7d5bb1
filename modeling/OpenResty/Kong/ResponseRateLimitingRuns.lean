/-
Runs of the response-ratelimiting plugin: as long as no increment takes a counter past its
limit, a limit that has been reached blocks every later request of its period.
-/
import Mathlib.Tactic.Linarith
import OpenResty.Kong.ResponseRateLimiting

namespace OpenResty.Kong.ResponseRateLimiting

open Timestamp Lib.Transition List Option Function
open RateLimiting (ApiId)

variable {ι : Type} [DecidableEq ι] {luatz : Luatz} {conf : Conf} {api_id : ApiId} {utils : Utils}
  {s s' : System ι} {e : Event ι}

/-! ## Blocking -/

theorem leastRemaining_none (hblock : conf.block_on_first_violation = true) {v : List (Period × Usage)}
    {lv : Period × Usage} (hmem : lv ∈ v) (hzero : lv.2.remaining = 0) (remaining : Option Rat) :
    leastRemaining conf remaining v = none := by
  induction v generalizing remaining with
  | nil => cases hmem
  | cons l v ih =>
    obtain ⟨lk', lv'⟩ := l
    unfold leastRemaining
    split
    · rfl
    · next hnot =>
      rcases mem_cons.mp hmem with rfl | hmem
      · exact absurd ⟨hblock, hzero⟩ hnot
      · exact ih hmem _

variable {k : String}

theorem checkNames_blocked {usage rest : UsageTable} {v : List (Period × Usage)} (hmem : (k, v) ∈ rest)
    (hnone : leastRemaining conf none v = none) (headers : List (String × Option Rat)) :
    ∃ message, checkNames conf usage headers rest = .blocked message := by
  induction rest generalizing headers with
  | nil => cases hmem
  | cons l rest ih =>
    obtain ⟨k', v'⟩ := l
    rw [checkNames]
    cases hv' : leastRemaining conf none v' with
    | none => exact ⟨_, rfl⟩
    | some remaining =>
      rcases mem_cons.mp hmem with heq | hmem
      · cases heq
        rw [hnone] at hv'
        cases hv'
      · exact ih hmem _

variable {least lv value : Rat} {n now : Nat}

variable {counters : Counters}

/-- A limit of which nothing remains blocks. -/
theorem access_blocked (hblock : conf.block_on_first_violation = true) {lk : Period}
    (hlimit : conf.Limit k lk lv) {client : Client}
    (hfull : policyUsage luatz conf api_id counters now (get_identifier conf client) (get_utc now) lk k = lv) :
    ∃ message, access luatz conf api_id counters now client = .blocked message := by
  obtain ⟨v, hv, hlk⟩ := hlimit
  have hne : conf.limits ≠ [] := ne_nil_of_mem hv
  rw [access, if_neg hne]
  refine checkNames_blocked (mem_map.mpr ⟨_, hv, rfl⟩) ?_ []
  refine leastRemaining_none hblock (mem_map.mpr ⟨_, hlk, rfl⟩) ?_ none
  show lv - policyUsage luatz conf api_id counters now (get_identifier conf client) (get_utc now) lk k = 0
  rw [hfull, sub_self]

/-! ## What a step does -/

/-- What becomes of the counters in a step: nothing, or one increment of a timer. -/
theorem step_cases (hstep : step luatz conf api_id utils s e = some s') :
    (∃ d, e = .tick d ∧ s'.now = s.now + d ∧ s'.counters = s.counters) ∨
      (s'.now = s.now ∧ s'.counters = s.counters) ∨
      ∃ i request name value period todo, e = .count i ∧ s.requests i = some request ∧
        request.phase = .logged ((name, value, period) :: todo) ∧ s'.now = s.now ∧
        s'.counters = s.counters.increment conf.policy s.now
          (request.key luatz conf api_id name period) period value := by
  cases e with
  | tick d =>
    cases hstep
    exact .inl ⟨d, rfl, rfl, rfl⟩
  | access i client =>
    refine .inr (.inl ?_)
    simp only [step] at hstep
    split at hstep
    · cases hstep
      exact ⟨rfl, rfl⟩
    · cases hstep
      exact ⟨rfl, rfl⟩
    · cases hstep
  | respond i header_value =>
    refine .inr (.inl ?_)
    simp only [step] at hstep
    split at hstep
    · cases hstep
      exact ⟨rfl, rfl⟩
    · cases hstep
  | log i =>
    refine .inr (.inl ?_)
    simp only [step] at hstep
    split at hstep
    · split at hstep
      · cases hstep
        exact ⟨rfl, rfl⟩
      · cases hstep
        exact ⟨rfl, rfl⟩
    · cases hstep
  | count i =>
    simp only [step] at hstep
    cases hi : s.requests i with
    | none =>
      rw [hi] at hstep
      cases hstep
    | some request =>
      rw [hi] at hstep
      dsimp only at hstep
      split at hstep
      · cases hstep
        exact .inr (.inl ⟨rfl, rfl⟩)
      · next name value period todo hphase =>
        cases hstep
        exact .inr (.inr ⟨i, request, name, value, period, todo, rfl, hi, hphase, rfl, rfl⟩)
      · cases hstep

/-- What becomes of the requests in a step: one of them goes on, or none. -/
theorem step_requests (hstep : step luatz conf api_id utils s e = some s') {j : ι} {request : Request}
    (hj : s'.requests j = some request) :
    s.requests j = some request ∨
      match request.phase with
      | .proxied _ => True
      | .responded _ increments _ => ∃ header_value, e = .respond j header_value ∧
          increments = parse_header utils header_value conf.limits
      | .logged todo => (∃ before usage increments stop_log, s.requests j = some before ∧
            before.phase = .responded usage increments stop_log ∧ todo = logIncrements usage increments) ∨
          ∃ before x, s.requests j = some before ∧ before.phase = .logged (x :: todo) := by
  have hset {i : ι} {r : Option Request} {phase : Prop} (hj : (s.set i r).requests j = some request)
      (hnew : j = i → r = some request → phase) : s.requests j = some request ∨ phase := by
    by_cases hji : j = i
    · subst hji
      exact .inr (hnew rfl (by simpa [System.set] using hj))
    · exact .inl (by simpa [System.set, update_of_ne hji] using hj)
  cases e with
  | tick d =>
    cases hstep
    exact .inl hj
  | access i client =>
    simp only [step] at hstep
    split at hstep
    · cases hstep
      refine hset hj fun _ hr => ?_
      cases hr
      trivial
    · cases hstep
      exact .inl hj
    · cases hstep
  | respond i header_value =>
    simp only [step] at hstep
    split at hstep
    · cases hstep
      refine hset hj fun hji hr => ?_
      cases hr
      exact ⟨header_value, by rw [hji], rfl⟩
    · cases hstep
  | log i =>
    simp only [step] at hstep
    split at hstep
    · next hi =>
      split at hstep
      · cases hstep
        exact hset hj fun _ hr => by cases hr
      · cases hstep
        refine hset hj fun hji hr => ?_
        cases hr
        exact .inl ⟨_, _, _, _, by rw [hji]; exact hi, rfl, rfl⟩
    · cases hstep
  | count i =>
    simp only [step] at hstep
    cases hi : s.requests i with
    | none =>
      rw [hi] at hstep
      cases hstep
    | some before =>
      rw [hi] at hstep
      dsimp only at hstep
      split at hstep
      · cases hstep
        exact hset hj fun _ hr => by cases hr
      · next name value period todo hphase =>
        cases hstep
        refine hset (r := some { before with phase := .logged todo }) hj fun hji hr => ?_
        cases hr
        exact .inr ⟨before, _, by rw [hji]; exact hi, hphase⟩
      · cases hstep

/-! ## Runs -/

/-- The upstream announces no negative increment. -/
def Announced (conf : Conf) (utils : Utils) (_ : System ι) : Event ι → Prop
  | .respond _ header_value => ∀ name increment,
      parse_header utils header_value conf.limits name = some increment → 0 ≤ increment
  | _ => True

/-- No increment takes a counter past a limit, and no counter expires in a period that is still running. -/
def Careful (luatz : Luatz) (conf : Conf) (api_id : ApiId) (s : System ι) : Event ι → Prop
  | .count i => ∀ request name value period todo, s.requests i = some request →
      request.phase = .logged ((name, value, period) :: todo) →
      ∀ identifier date k lk lv, conf.Limit k lk lv →
        counterKey conf.policy api_id identifier date k lk = request.key luatz conf api_id name period →
        (s.counters.get s.now (request.key luatz conf api_id name period)).getD 0 + value ≤ lv
  | .tick d => ∀ identifier k lk lv value expires, conf.Limit k lk lv →
      s.counters (counterKey conf.policy api_id identifier (get_timestamps luatz (get_utc (s.now + d)) lk) k lk) =
          some (value, some expires) →
        s.now < expires → s.now + d < expires
  | _ => True

/-- Nothing has been counted yet, at a time after 1988. -/
structure Start (s : System ι) : Prop where
  late : ms_check < get_utc s.now
  counters : ∀ key, s.counters key = none
  requests : ∀ i, s.requests i = none

/-- The increments that a request still has are not negative. -/
def Request.Growing (request : Request) : Prop :=
  match request.phase with
  | .proxied _ => True
  | .responded _ increments _ => ∀ name increment, increments name = some increment → 0 ≤ increment
  | .logged todo => ∀ x ∈ todo, 0 ≤ x.2.1

structure Inv (conf : Conf) (api_id : ApiId) (s : System ι) : Prop where
  late : ms_check < get_utc s.now
  bounded : ∀ identifier date k lk lv value expires, conf.Limit k lk lv →
    s.counters (counterKey conf.policy api_id identifier date k lk) = some (value, expires) → value ≤ lv
  growing : ∀ i request, s.requests i = some request → request.Growing

omit [DecidableEq ι] in
theorem Inv.ofStart (h : Start s) : Inv conf api_id s where
  late := h.late
  bounded _ _ _ _ _ _ _ _ hkey := by
    rw [h.counters] at hkey
    cases hkey
  growing i request hi := by
    rw [h.requests] at hi
    cases hi

theorem growing_logIncrements {usage : UsageTable} {increments : String → Option Rat}
    (h : ∀ name increment, increments name = some increment → 0 ≤ increment) :
    ∀ x ∈ logIncrements usage increments, 0 ≤ x.2.1 := by
  intro x hx
  obtain ⟨⟨k, v⟩, -, hmem⟩ := mem_flatMap.mp hx
  dsimp only at hmem
  split at hmem
  · next value hvalue =>
    split at hmem
    · obtain ⟨period, -, rfl⟩ := mem_map.mp hmem
      exact h k value hvalue
    · cases hmem
  · cases hmem

theorem stored_of_get {key : CounterKey}
    (h : counters.get now key = some value) : ∃ expires, counters key = some (value, expires) := by
  unfold Counters.get at h
  split at h
  · next value' hkey =>
    cases h
    exact ⟨_, hkey⟩
  · next value' expires hkey =>
    split at h
    · cases h
      exact ⟨_, hkey⟩
    · cases h
  · cases h

/-- What a counter holds after an increment, which has not expired then. -/
theorem increment_self (counters : Counters) (policy : PolicyName) (now : Nat) (key : CounterKey) (period : Period)
    (value : Rat) : ∃ expires,
      counters.increment policy now key period value key = some ((counters.get now key).getD 0 + value, expires) ∧
      ∀ time, expires = some time → now < time := by
  rw [Counters.increment, update_self]
  cases hget : counters.get now key with
  | none =>
    refine ⟨_, by rw [getD_none, zero_add], fun time htime => ?_⟩
    split at htime
    · cases htime
      cases period <;> exact Nat.lt_add_of_pos_right (by decide)
    · cases htime
  | some count =>
    refine ⟨_, rfl, fun time htime => ?_⟩
    unfold Counters.get at hget
    split at hget
    · next hkey =>
      rw [hkey] at htime
      cases htime
    · next expires hkey =>
      rw [hkey] at htime
      cases htime
      split at hget
      · assumption
      · cases hget
    · cases hget

theorem get_increment_self (counters : Counters) (policy : PolicyName) (now : Nat) (key : CounterKey)
    (period : Period)
    (value : Rat) :
    (counters.increment policy now key period value).get now key = some ((counters.get now key).getD 0 + value) := by
  obtain ⟨expires, hself, hlive⟩ := increment_self counters policy now key period value
  unfold Counters.get
  rw [hself]
  cases expires with
  | none => rfl
  | some time => exact if_pos (hlive time rfl)

theorem increment_of_ne {policy : PolicyName} {key key' : CounterKey}
    {period : Period} (h : key' ≠ key) : counters.increment policy now key period value key' = counters key' :=
  update_of_ne h _ _

theorem Inv.step (h : Inv conf api_id s) (hstep : step luatz conf api_id utils s e = some s')
    (hannounced : Announced conf utils s e) (hcareful : Careful luatz conf api_id s e) : Inv conf api_id s' := by
  refine ⟨?_, ?_, ?_⟩
  · have hnow : s.now ≤ s'.now := by
      rcases step_cases hstep with ⟨d, -, hnow, -⟩ | ⟨hnow, -⟩ | ⟨_, _, _, _, _, _, -, -, -, hnow, -⟩
      · omega
      · omega
      · omega
    exact Nat.lt_of_lt_of_le h.late (RateLimiting.get_utc_mono hnow)
  · intro identifier date k lk lv value expires hlimit hkey
    rcases step_cases hstep with ⟨d, -, -, hsame⟩ | ⟨-, hsame⟩ |
      ⟨i, request, name, increment, period, todo, rfl, hi, hphase, -, hcounters⟩
    · exact h.bounded identifier date k lk lv value expires hlimit (hsame ▸ hkey)
    · exact h.bounded identifier date k lk lv value expires hlimit (hsame ▸ hkey)
    · rw [hcounters] at hkey
      by_cases heq : counterKey conf.policy api_id identifier date k lk = request.key luatz conf api_id name period
      · have hbound := hcareful request name increment period todo hi hphase identifier date k lk lv hlimit heq
        obtain ⟨expires', hself, -⟩ := increment_self s.counters conf.policy s.now
          (request.key luatz conf api_id name period) period increment
        rw [heq, hself] at hkey
        cases hkey
        exact hbound
      · rw [increment_of_ne heq] at hkey
        exact h.bounded identifier date k lk lv value expires hlimit hkey
  · intro j request hj
    rcases step_requests hstep hj with hsame | hnew
    · exact h.growing j request hsame
    · unfold Request.Growing
      revert hnew
      cases request.phase with
      | proxied usage => exact fun _ => trivial
      | responded usage increments stop_log =>
        rintro ⟨header_value, rfl, rfl⟩
        exact hannounced
      | logged todo =>
        rintro (⟨before, usage, increments, stop_log, hbefore, hphase, rfl⟩ | ⟨before, x, hbefore, hphase⟩)
        · have hgrowing := h.growing j before hbefore
          unfold Request.Growing at hgrowing
          rw [hphase] at hgrowing
          exact growing_logIncrements hgrowing
        · have hgrowing := h.growing j before hbefore
          unfold Request.Growing at hgrowing
          rw [hphase] at hgrowing
          exact fun y hy => hgrowing y (mem_cons_of_mem x hy)

/-- What is recorded of a period that is still running after a step is no less than before it. -/
theorem usage_mono (h : Inv conf api_id s) (hstep : step luatz conf api_id utils s e = some s')
    (hcareful : Careful luatz conf api_id s e) {lk : Period} (hlimit : conf.Limit k lk lv)
    (hperiod : get_timestamps luatz (get_utc s.now) lk = get_timestamps luatz (get_utc s'.now) lk)
    (identifier : String)
    (hpos : 0 < least) (hle : least ≤ policyUsage luatz conf api_id s.counters s.now identifier
    (get_utc s.now) lk k) :
    least ≤ policyUsage luatz conf api_id s'.counters s'.now identifier (get_utc s'.now) lk k := by
  rw [policyUsage] at hle ⊢
  rw [← hperiod]
  rcases step_cases hstep with ⟨d, rfl, hnow, hsame⟩ | ⟨hnow, hsame⟩ |
    ⟨i, request, name, increment, period, todo, rfl, hi, hphase, hnow, hcounters⟩
  · -- the counter is there and does not expire in between
    rw [hsame, hnow]
    rw [hnow] at hperiod
    generalize hkey : counterKey conf.policy api_id identifier (get_timestamps luatz
      (get_utc s.now) lk) k lk = key at hle ⊢
    cases hget : s.counters.get s.now key with
    | none =>
      rw [hget, getD_none] at hle
      exact absurd (hpos.trans_le hle) (lt_irrefl 0)
    | some value =>
      suffices hlater : s.counters.get (s.now + d) key = some value by rwa [hlater, ← hget]
      unfold Counters.get at hget ⊢
      split at hget
      · next value' hstored => simpa [hstored] using hget
      · next value' expires hstored =>
        split at hget
        · next hlive =>
          have hstored' := hstored
          rw [← hkey, hperiod] at hstored'
          have hlater := hcareful identifier k lk lv value' expires hlimit hstored' hlive
          simpa [hstored, hlater] using hget
        · cases hget
      · cases hget
  · rwa [hsame, hnow]
  · rw [hcounters, hnow]
    by_cases heq : counterKey conf.policy api_id identifier (get_timestamps luatz (get_utc s.now) lk) k lk =
        request.key luatz conf api_id name period
    · have hgrowing := h.growing i request hi
      unfold Request.Growing at hgrowing
      rw [hphase] at hgrowing
      have hnonneg : 0 ≤ increment := hgrowing _ mem_cons_self
      rw [heq] at hle ⊢
      rw [get_increment_self, getD_some]
      linarith
    · have hother : (s.counters.increment conf.policy s.now
        (request.key luatz conf api_id name period) period increment).get
          s.now (counterKey conf.policy api_id identifier (get_timestamps luatz (get_utc s.now) lk) k lk) =
          s.counters.get s.now (counterKey conf.policy api_id identifier
            (get_timestamps luatz (get_utc s.now) lk) k lk) := by
        rw [Counters.get, Counters.get, increment_of_ne heq]
      rwa [hother]

theorem now_le_of_run {es : List (Event ι)} (hrun : run (step luatz conf api_id utils) s es = some s') :
    s.now ≤ s'.now := by
  induction es generalizing s with
  | nil =>
    cases hrun
    exact Nat.le_refl _
  | cons e es ih =>
    rw [run] at hrun
    split at hrun
    · next s₁ hstep =>
      have hnow : s.now ≤ s₁.now := by
        rcases step_cases hstep with ⟨d, -, hnow, -⟩ | ⟨hnow, -⟩ | ⟨_, _, _, _, _, _, -, -, -, hnow, -⟩
        · omega
        · omega
        · omega
      exact Nat.le_trans hnow (ih hrun)
    · cases hrun

/-- What is recorded of a period stays until its end. -/
theorem usage_mono_run (h : Inv conf api_id s) {es : List (Event ι)}
    (hrun : run (step luatz conf api_id utils) s es = some s')
    (hannounced : Along (step luatz conf api_id utils) (Announced conf utils) s es)
    (hcareful : Along (step luatz conf api_id utils) (Careful luatz conf api_id) s es)
    {lk : Period}
    (hlimit : conf.Limit k lk lv)
    (hperiod : get_timestamps luatz (get_utc s.now) lk = get_timestamps luatz (get_utc s'.now) lk)
    (identifier : String) (hpos : 0 < least)
    (hle : least ≤ policyUsage luatz conf api_id s.counters s.now identifier (get_utc s.now) lk k) :
    Inv conf api_id s' ∧ least ≤ policyUsage luatz conf api_id s'.counters s'.now identifier
      (get_utc s'.now) lk k := by
  induction es generalizing s with
  | nil =>
    cases hrun
    exact ⟨h, hle⟩
  | cons e es ih =>
    have hrun₀ := hrun
    rw [run] at hrun
    split at hrun
    · next s₁ hstep =>
      obtain ⟨hann, hannounced⟩ := hannounced s₁ hstep
      obtain ⟨hcar, hcareful⟩ := hcareful s₁ hstep
      have hinv := h.step hstep hann hcar
      -- a moment between two of the same period is in it too
      have hlater := RateLimiting.get_utc_mono (now_le_of_run hrun)
      have hstart : get_timestamps luatz (get_utc s'.now) lk ≤ get_utc s₁.now := by
        have hfirst : run (step luatz conf api_id utils) s [e] = some s₁ := by rw [run, hstep]; rfl
        rw [← hperiod]
        exact Nat.le_trans (RateLimiting.get_timestamps_le luatz h.late lk)
          (RateLimiting.get_utc_mono (now_le_of_run hfirst))
      have hperiod₁ := RateLimiting.get_timestamps_eq_of_le hinv.late hlater hstart
      exact ih hinv hrun hannounced hcareful hperiod₁
        (usage_mono h hstep hcar hlimit (hperiod.trans hperiod₁.symm) identifier hpos hle)
    · cases hrun

/-- A limit that has been reached in the first state blocks in the second one, if its period is the same. -/
def Blocks (luatz : Luatz) (conf : Conf) (api_id : ApiId) (s s' : System ι) : Prop :=
  ∀ client k lk lv, conf.Limit k lk lv →
    get_timestamps luatz (get_utc s.now) lk = get_timestamps luatz (get_utc s'.now) lk →
    lv ≤ policyUsage luatz conf api_id s.counters s.now (get_identifier conf client) (get_utc s.now) lk k →
    ∃ message, access luatz conf api_id s'.counters s'.now client = .blocked message

/-- **Where no increment takes a counter past a limit, a limit once reached blocks every later request of its period.** -/
theorem blocks_of_careful (hblock : conf.block_on_first_violation = true) {s₀ : System ι} (hs : Start s₀)
    {es es' : List (Event ι)} (hrun : run (step luatz conf api_id utils) s₀ es = some s)
    (hrun' : run (step luatz conf api_id utils) s es' = some s')
    (hannounced : Along (step luatz conf api_id utils) (Announced conf utils) s₀ (es ++ es'))
    (hcareful : Along (step luatz conf api_id utils) (Careful luatz conf api_id) s₀ (es ++ es')) :
    Blocks luatz conf api_id s s' := by
  intro client k lk lv hlimit hperiod hreached
  have halways : Always (step luatz conf api_id utils) (Inv conf api_id) s₀ (es ++ es') :=
    always_of_along (fun s e s' hinv hstep hok => hinv.step hstep hok.1 hok.2) (.ofStart hs) (hannounced.and hcareful)
  have hinv : Inv conf api_id s := (halways.rest hrun).here
  have hpos : 0 < lv := by
    obtain ⟨v, hv, hlk⟩ := hlimit
    exact conf.positive _ hv _ hlk
  obtain ⟨hinv', hle⟩ := usage_mono_run hinv hrun' (hannounced.rest hrun) (hcareful.rest hrun) hlimit hperiod
    (get_identifier conf client) hpos hreached
  refine access_blocked hblock hlimit (le_antisymm ?_ hle)
  rw [policyUsage] at hle ⊢
  cases hget : s'.counters.get s'.now (counterKey conf.policy api_id (get_identifier conf client)
      (get_timestamps luatz (get_utc s'.now) lk) k lk) with
  | none => exact hpos.le
  | some value =>
    obtain ⟨expires, hstored⟩ := stored_of_get hget
    exact hinv'.bounded _ _ k lk lv value expires hlimit hstored

/-! ## A request that is counted once -/

/-- Two videos each second. -/
def twoVideos : Conf where
  limit_by := .ip
  policy := .localDict
  block_on_first_violation := true
  limits := [("video", [(.second, 2)])]
  positive := by decide

def someApi : ApiId where
  id := "api"
  plain := by decide

def someClient : Client where
  consumer_id := none
  credential_id := none
  remote_addr := "10.0.0.1"

/-- penlight on a separator of one character; the texts have no blanks. -/
def someUtils : Utils where
  split s separator :=
    match separator.toList with
    | [c] => (s.toList.splitOn c).map String.ofList
    | _ => [s]
  strip s := s

/-- Noon of a day. -/
def noon : System Unit where
  now := 1500000000000
  counters _ := none
  requests _ := none

/-- The table of the usage before anything is counted. -/
def unused : UsageTable := [("video", [(.second, { limit := 2, remaining := 2 })])]

def increments (value : Rat) (name : String) : Option Rat := if name = "video" then some value else none

/-- The one request of these runs. -/
def theRequest (phase : Phase) : Request where
  identifier := "10.0.0.1"
  current_timestamp := 1500000000000
  phase := phase

def theStep : System Unit → Event Unit → Option (System Unit) := step gregorian twoVideos someApi someUtils

def accessed : System Unit := noon.set () (some (theRequest (.proxied unused)))

def responded (n : Nat) : System Unit := noon.set () (some (theRequest (.responded unused (increments n) false)))

def logged (n : Nat) : System Unit :=
  noon.set () (some (theRequest (.logged (periods.map fun period => ("video", (n : Rat), period)))))

/-- The state in which the timer has counted a second. -/
def counted (n : Nat) : System Unit :=
  { noon.set () (some (theRequest (.logged (periods.tail.map fun period => ("video", (n : Rat), period))))) with
    counters := noon.counters.increment .localDict noon.now
      ((theRequest (.proxied unused)).key gregorian twoVideos someApi "video" .second) .second n }

/-- The header that announces `n` videos. -/
def announced (n : Nat) : Event Unit := .respond () (some (.several ["video=" ++ toString n]))

def counting (n : Nat) : List (Event Unit) := [.access () someClient, announced n, .log (), .count ()]

theorem parse_header_announced (hn : n = 2 ∨ n = 3) :
    parse_header someUtils (some (.several ["video=" ++ toString n])) twoVideos.limits = increments n := by
  funext name
  have hsplit : someUtils.split ("video=" ++ toString n) "=" = ["video", toString n] := by
    rcases hn with rfl | rfl
    · decide
    · decide
  simp only [parse_header, List.foldl_cons, List.foldl_nil]
  rw [hsplit]
  change (if "video" = name ∧ name ∈ ["video"] then Lua.tonumber (toString n) else none) = increments n name
  by_cases h : name = "video"
  · subst h
    simpa [increments] using Lua.tonumber_repr n
  · simp [increments, h]

theorem access_noon : access gregorian twoVideos someApi noon.counters noon.now someClient =
    .proxied [("X-RateLimit-Remaining-video", some 2)] unused := by
  simp [access, twoVideos, get_usage, policyUsage, Counters.get, noon, checkNames, leastRemaining, unused]

theorem theStep_access : theStep noon (.access () someClient) = some accessed := by
  rw [theStep, step, access_noon]
  rfl

theorem theStep_respond (hn : n = 2 ∨ n = 3) : theStep accessed (announced n) = some (responded n) := by
  have hstop : (headerFilter unused (increments n)).2 = false := by
    simp [headerFilter, unused, increments]
  simp only [theStep, announced, step, accessed, System.set, update_self, theRequest]
  rw [parse_header_announced hn, hstop]
  simp [responded, System.set, theRequest]

theorem theStep_log (hn : n = 2 ∨ n = 3) : theStep (responded n) (.log ()) = some (logged n) := by
  have hne : (n : Rat) ≠ 0 := by rcases hn with rfl | rfl <;> norm_num
  simp [theStep, step, responded, logged, System.set, theRequest, logIncrements, unused, increments, hne]

theorem theStep_count (n : Nat) : theStep (logged n) (.count ()) = some (counted n) := by
  simp [theStep, step, logged, counted, System.set, theRequest, periods, Request.key, twoVideos]

theorem run_counting (hn : n = 2 ∨ n = 3) : run theStep noon (counting n) = some (counted n) := by
  rw [counting, run_cons theStep_access, run_cons (theStep_respond hn), run_cons (theStep_log hn),
    run_cons (theStep_count n)]
  rfl

theorem announced_counting (hn : n = 2 ∨ n = 3) :
    Along theStep (Announced twoVideos someUtils) noon (counting n) := by
  refine .cons theStep_access trivial (.cons (theStep_respond hn) ?_ (.cons (theStep_log hn) trivial
    (.cons (theStep_count n) trivial trivial)))
  intro name increment hincrement
  rw [parse_header_announced hn] at hincrement
  by_cases h : name = "video"
  · cases (some.inj ((if_pos h).symm.trans hincrement))
    exact Nat.cast_nonneg n
  · cases (if_neg h).symm.trans hincrement

theorem start_noon : Start noon where
  late := by decide
  counters _ := rfl
  requests _ := rfl

theorem usage_counted (n : Nat) : policyUsage gregorian twoVideos someApi (counted n).counters (counted n).now
    (get_identifier twoVideos someClient) (get_utc (counted n).now) .second "video" = n := by
  have hkey : counterKey twoVideos.policy someApi (get_identifier twoVideos someClient)
      (get_timestamps gregorian (get_utc (counted n).now) .second) "video" .second =
      (theRequest (.proxied unused)).key gregorian twoVideos someApi "video" .second := by
    have hutc : get_utc (counted n).now = (theRequest (.proxied unused)).current_timestamp := by
      show get_utc 1500000000000 = 1500000000000
      decide
    rw [Request.key, hutc]
    rfl
  have hnow : (counted n).now = noon.now := rfl
  rw [policyUsage, hkey, hnow, counted, get_increment_self]
  simp [noon, Counters.get]

/-- What remains is -1, and the request is proxied. -/
theorem access_counted : ∃ headers usage,
    access gregorian twoVideos someApi (counted 3).counters (counted 3).now someClient = .proxied headers usage := by
  have husage : get_usage gregorian twoVideos someApi (counted 3).counters (counted 3).now
    (get_identifier twoVideos someClient)
      (get_utc (counted 3).now) = [("video", [(.second, { limit := 2, remaining := 2 - 3 })])] := by
    have h := usage_counted 3
    simp only [get_usage, twoVideos, map_cons, map_nil] at h ⊢
    rw [h]
    rfl
  refine ⟨[("X-RateLimit-Remaining-video", some (2 - 3))],
    [("video", [(.second, { limit := 2, remaining := 2 - 3 })])], ?_⟩
  rw [access, if_neg (by decide)]
  dsimp only
  rw [husage]
  have hne : (2 : Rat) - 3 ≠ 0 := by norm_num
  simp [checkNames, leastRemaining, hne]

theorem blocks_two_announced :
    ∃ s, run theStep noon (counting 2) = some s ∧ Blocks gregorian twoVideos someApi s s := by
  have hstay : run theStep (counted 2) [] = some (counted 2) := rfl
  refine ⟨_, run_counting (.inl rfl), blocks_of_careful rfl start_noon (run_counting (.inl rfl)) hstay
    (announced_counting (.inl rfl)) ?_⟩
  refine .cons theStep_access trivial (.cons (theStep_respond (.inl rfl)) trivial
    (.cons (theStep_log (.inl rfl)) trivial (.cons (theStep_count 2) ?_ trivial)))
  intro request name value period todo hi hphase identifier date k lk lv hlimit hkey
  obtain ⟨v, hv, hlk⟩ := hlimit
  cases mem_singleton.mp hv
  cases mem_singleton.mp hlk
  have hvalue : value = 2 := by
    cases some.inj hi
    cases hphase
    rfl
  rw [hvalue]
  simp [logged, System.set, noon, Counters.get]

/-- The third video goes past the limit, and the next request is proxied. -/
theorem not_blocks_three_announced : Start noon ∧ run theStep noon (counting 3) = some (counted 3) ∧
    Along theStep (Announced twoVideos someUtils) noon (counting 3) ∧
    ¬ Blocks gregorian twoVideos someApi (counted 3) (counted 3) := by
  refine ⟨start_noon, run_counting (.inr rfl), announced_counting (.inr rfl), fun hblocks => ?_⟩
  have hlimit : twoVideos.Limit "video" .second 2 := ⟨_, mem_singleton.mpr rfl, mem_singleton.mpr rfl⟩
  have hreached := usage_counted 3
  obtain ⟨message, hblocked⟩ := hblocks someClient "video" .second 2 hlimit rfl (by rw [hreached]; norm_num)
  obtain ⟨headers, usage, hproxied⟩ := access_counted
  rw [hproxied] at hblocked
  cases hblocked

end OpenResty.Kong.ResponseRateLimiting
