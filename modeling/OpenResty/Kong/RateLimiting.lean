/-
`kong.plugins.rate-limiting.policies`: the counters of the redis policy, beside
those that the local policy keeps for the same increments.

An increment of the redis policy is cut into the commands it sends, between
which those of other workers come and time passes. A counter lives for a number
of seconds from its first increment, which is less than the months of 31 days
and the years of 366.
-/
import OpenResty.Kong.Timestamp
import OpenResty.Lib.Join
import OpenResty.Lib.Transition
import OpenResty.Lua.Numeral

namespace OpenResty.Kong.RateLimiting

open Timestamp Lib.Transition Function Option List

/-! ## Keys -/

/-- The id of an API, which is a UUID: no colon is in it. -/
structure ApiId where
  id : String
  plain : ':' ∉ id.toList
  deriving DecidableEq

def periodName : Period → String
  | .second => "second"
  | .minute => "minute"
  | .hour => "hour"
  | .day => "day"
  | .month => "month"
  | .year => "year"

/-- The date is a number of milliseconds of at most 14 digits, which `%s` writes
in full. -/
def get_local_key (api_id : ApiId) (identifier : String) (period_date : Nat) (name : Period) : String :=
  "ratelimit:" ++ api_id.id ++ ":" ++ identifier ++ ":" ++ toString period_date ++ ":" ++ periodName name

/-- In seconds. -/
def EXPIRATIONS : Period → Nat
  | .second => 1
  | .minute => 60
  | .hour => 3600
  | .day => 86400
  | .month => 2592000
  | .year => 31536000

/-! ## Counters -/

/-- What Redis holds, with the time when it expires, if it does. -/
abbrev Redis := String → Option (Nat × Option Nat)

namespace Redis

def get (now : Nat) (redis : Redis) (key : String) : Option Nat :=
  match redis key with
  | some (value, none) => some value
  | some (value, some expires) => if now < expires then some value else none
  | none => none

/-- A counter that is there keeps its expiration, a new one has none. -/
def incrby (now : Nat) (redis : Redis) (key : String) (value : Nat) : Redis :=
  update redis key
    (match redis.get now key with
    | some count => some (count + value, (redis key).bind Prod.snd)
    | none => some (value, none))

def expire (now : Nat) (redis : Redis) (key : String) (seconds : Nat) : Redis :=
  match redis.get now key with
  | some count => update redis key (some (count, some (now + seconds * 1000)))
  | none => redis

end Redis

/-- `sh_incr` of the local policy, which starts from 0. -/
def sh_incr (cache : String → Option Nat) (key : String) (value : Nat) : String → Option Nat :=
  update cache key (some ((cache key).getD 0 + value))

/-! ## Steps -/

/-- The next command for a period. -/
inductive Pc
  | exists
  /-- with whether `expire` is in the pipeline too -/
  | incrby (expire : Bool)
  | expire

/-- A call of `increment`, with the configured periods that are left in the order
of `pairs`. -/
structure Job where
  api_id : ApiId
  identifier : String
  current_timestamp : Nat
  value : Nat
  periods : List Period
  pc : Pc

/-- An increment that was made of one counter. -/
structure Increment where
  api_id : ApiId
  identifier : String
  current_timestamp : Nat
  name : Period
  value : Nat

structure System (ι : Type) where
  /-- in milliseconds -/
  now : Nat
  redis : Redis
  /-- what the local policy has for the same increments -/
  cache : String → Option Nat
  increments : List Increment
  jobs : ι → Option Job

inductive Event (ι : Type)
  | tick (milliseconds : Nat)
  /-- a request is let through, and its increment is left to a timer -/
  | access (i : ι) (api_id : ApiId) (identifier : String) (limits : List Period) (value : Nat)
  | command (i : ι)
  /-- an error of the connection ends the call -/
  | fail (i : ι)

variable {ι : Type} [DecidableEq ι] (luatz : Luatz)

/-- The next command of a call, which is at `exists` of the next period after the
last of one. -/
def command (s : System ι) (i : ι) (job : Job) : System ι :=
  match job.periods with
  | [] => { s with jobs := update s.jobs i none }
  | period :: periods =>
    let cache_key := get_local_key job.api_id job.identifier (get_timestamps luatz job.current_timestamp period) period
    match job.pc with
    | .exists =>
      let exist := (s.redis.get s.now cache_key).isSome
      { s with jobs := update s.jobs i (some { job with pc := .incrby (!exist) }) }
    | .incrby expire =>
      { s with
        redis := s.redis.incrby s.now cache_key job.value
        cache := sh_incr s.cache cache_key job.value
        increments := ⟨job.api_id, job.identifier, job.current_timestamp, period, job.value⟩ :: s.increments
        jobs :=
          update s.jobs i
            (some (if expire then { job with pc := .expire } else { job with periods, pc := .exists })) }
    | .expire =>
      { s with
        redis := s.redis.expire s.now cache_key (EXPIRATIONS period)
        jobs := update s.jobs i (some { job with periods, pc := .exists }) }

def step (s : System ι) : Event ι → Option (System ι)
  | .tick milliseconds => some { s with now := s.now + milliseconds }
  | .access i api_id identifier limits value =>
    match s.jobs i with
    | none =>
      some
        { s with
          jobs := update s.jobs i (some ⟨api_id, identifier, get_utc s.now, value, limits, .exists⟩) }
    | some _ => none
  | .command i => (s.jobs i).map (command luatz s i)
  | .fail i => some { s with jobs := update s.jobs i none }

/-- `usage` of the redis policy. -/
def usage (s : System ι) (api_id : ApiId) (identifier : String) (current_timestamp : Nat) (name : Period) : Nat :=
  (s.redis.get s.now
    (get_local_key api_id identifier (get_timestamps luatz current_timestamp name) name)).getD 0

/-- `usage` of the local policy. -/
def localUsage (s : System ι) (api_id : ApiId) (identifier : String) (current_timestamp : Nat) (name : Period) : Nat :=
  (s.cache (get_local_key api_id identifier (get_timestamps luatz current_timestamp name) name)).getD 0

/-- The sum of the increments that were made for requests since a time. -/
def total (increments : List Increment) (api_id : ApiId) (identifier : String) (name : Period) (since : Nat) : Nat :=
  ((increments.filter fun x =>
    x.api_id = api_id ∧ x.identifier = identifier ∧ x.name = name ∧ since ≤ x.current_timestamp).map Increment.value).sum

/-- The usage of a period reported now is what was counted since it began, and
what the local policy reports. -/
def RightFor (name : Period) (s : System ι) : Prop :=
  ∀ api_id identifier,
    usage luatz s api_id identifier (get_utc s.now) name =
        total s.increments api_id identifier name (get_timestamps luatz (get_utc s.now) name) ∧
      usage luatz s api_id identifier (get_utc s.now) name = localUsage luatz s api_id identifier (get_utc s.now) name

def Right (s : System ι) : Prop := ∀ name, RightFor luatz name s

/-- Where time passes, the counters of the periods that are still running then
have not expired by then. -/
def CarefulFor (name : Period) (s : System ι) : Event ι → Prop
  | .tick milliseconds =>
    ∀ api_id identifier count expires,
      s.redis (get_local_key api_id identifier (get_timestamps luatz (get_utc (s.now + milliseconds)) name) name) =
          some (count, some expires) →
        count ≠ 0 → s.now < expires → s.now + milliseconds < expires
  | _ => True

def Careful (s : System ι) (e : Event ι) : Prop := ∀ name, CarefulFor luatz name s e

/-- Nothing has been counted yet, at a time after 1988. -/
structure Start (s : System ι) : Prop where
  late : ms_check < get_utc s.now
  redis : ∀ key, s.redis key = none
  cache : ∀ key, s.cache key = none
  increments : s.increments = []
  jobs : ∀ i, s.jobs i = none

/-! ## The keys of counters -/

theorem notMem_periodName (name : Period) : ':' ∉ (periodName name).toList := by
  cases name <;> decide

theorem periodName_inj {a b : Period} (h : (periodName a).toList = (periodName b).toList) : a = b := by
  revert h
  cases a <;> cases b <;> decide

theorem notMem_date (date : Nat) : ':' ∉ (toString date).toList :=
  Lua.notMem_toString (c := ':') (by decide) (by decide) date

theorem toList_get_local_key (api_id : ApiId) (identifier : String) (period_date : Nat) (name : Period) :
    (get_local_key api_id identifier period_date name).toList =
      "ratelimit:".toList ++ (api_id.id.toList ++ ':' :: (identifier.toList ++
        ':' :: ((toString period_date).toList ++ ':' :: (periodName name).toList))) := by
  show ("ratelimit:" ++ api_id.id ++ ":" ++ identifier ++ ":" ++ toString period_date ++ ":" ++
    periodName name).toList = _
  simp only [String.toList_append, append_assoc]
  rfl

variable {d t u : Nat}

/-- The key tells the counters apart, also where colons are in the identifier. -/
theorem get_local_key_inj {a b : ApiId} {x y : String} {e : Nat} {m n : Period}
    (h : get_local_key a x d m = get_local_key b y e n) : a = b ∧ x = y ∧ d = e ∧ m = n := by
  have hlists := congrArg String.toList h
  rw [toList_get_local_key, toList_get_local_key] at hlists
  have hrest := append_cancel_left hlists
  obtain ⟨hid, hrest⟩ := Lib.append_cons_inj_left a.plain b.plain hrest
  have hlast := Lib.append_cons_inj (notMem_periodName m) (notMem_periodName n)
    (show (x.toList ++ ':' :: (toString d).toList) ++ ':' :: (periodName m).toList =
        (y.toList ++ ':' :: (toString e).toList) ++ ':' :: (periodName n).toList by
      simpa only [append_assoc, cons_append] using hrest)
  obtain ⟨hx, hdate⟩ := Lib.append_cons_inj (notMem_date d) (notMem_date e) hlast.1
  refine ⟨?_, String.toList_injective hx, ?_, periodName_inj hlast.2⟩
  · cases a
    cases b
    cases String.toList_injective hid
    rfl
  · exact Lua.toString_natInj (String.toList_injective hdate)

/-! ## The clock -/

variable {luatz}

theorem get_utc_mono (h : t ≤ u) : get_utc t ≤ get_utc u :=
  Nat.mul_le_mul_right 1000 (Nat.div_le_div_right h)

theorem get_timestamps_le (luatz : Luatz) (ht : ms_check < t) (p : Period) : get_timestamps luatz t p ≤ t := by
  have := luatz.start_le p (t / 1000)
  rw [get_timestamps_eq luatz ht]
  omega

/-- A moment after the period of a later one began is in the same period. -/
theorem get_timestamps_eq_of_le {p : Period} (ht : ms_check < t) (hle : t ≤ u)
    (hstart : get_timestamps luatz u p ≤ t) : get_timestamps luatz t p = get_timestamps luatz u p := by
  rw [get_timestamps_eq luatz (by omega)] at hstart ⊢
  rw [get_timestamps_eq luatz (by omega)]
  rw [luatz.start_eq_of_le (by omega) (Nat.div_le_div_right hle)]

/-! ## What the commands do -/

namespace Redis

variable {now : Nat} {redis : Redis} {key key' : String} {value seconds : Nat}

theorem incrby_of_ne (h : key' ≠ key) : redis.incrby now key value key' = redis key' :=
  update_of_ne h _ _

theorem expire_eq_none (h : redis key' = none) : redis.expire now key seconds key' = none := by
  cases hlive : redis.get now key with
  | some count =>
    have hne : key' ≠ key := by
      rintro rfl
      simp [get, h] at hlive
    simp only [expire, hlive, update_of_ne hne, h]
  | none => simp only [expire, hlive, h]

end Redis

variable {cache : String → Option Nat}

theorem sh_incr_self {key : String} {value : Nat} : sh_incr cache key value key = some ((cache key).getD 0 + value) :=
  update_self _ _ _

theorem sh_incr_of_ne {key key' : String} {value : Nat} (h : key' ≠ key) :
    sh_incr cache key value key' = cache key' :=
  update_of_ne h _ _

/-! ## What a step does to the counters -/

variable (luatz) in
/-- A step that is not one of time, by what it does to the counters. -/
inductive Counters (s s' : System ι) : Prop
  | same (hredis : s'.redis = s.redis) (hcache : s'.cache = s.cache) (hincrements : s'.increments = s.increments)
  | incrby (i : ι) (job : Job) (period : Period) (hjob : s.jobs i = some job)
      (hredis :
        s'.redis =
          s.redis.incrby s.now
            (get_local_key job.api_id job.identifier (get_timestamps luatz job.current_timestamp period) period)
            job.value)
      (hcache :
        s'.cache =
          sh_incr s.cache
            (get_local_key job.api_id job.identifier (get_timestamps luatz job.current_timestamp period) period)
            job.value)
      (hincrements :
        s'.increments = ⟨job.api_id, job.identifier, job.current_timestamp, period, job.value⟩ :: s.increments)
  | expire (i : ι) (job : Job) (period : Period) (hjob : s.jobs i = some job)
      (hredis :
        s'.redis =
          s.redis.expire s.now
            (get_local_key job.api_id job.identifier (get_timestamps luatz job.current_timestamp period) period)
            (EXPIRATIONS period))
      (hcache : s'.cache = s.cache) (hincrements : s'.increments = s.increments)

variable {s s' : System ι} {e : Event ι}

/-- A call is for the present, or for the time of another call. -/
def TimeFrom (s : System ι) (job' : Job) : Prop :=
  job'.current_timestamp = get_utc s.now ∨
    ∃ j job, s.jobs j = some job ∧ job'.current_timestamp = job.current_timestamp

def JobsFrom (s s' : System ι) : Prop := ∀ i job', s'.jobs i = some job' → TimeFrom s job'

theorem jobsFrom_update {i : ι} {job' : Option Job} (hjobs : s'.jobs = update s.jobs i job')
    (h : ∀ job ∈ job', TimeFrom s job) : JobsFrom s s' := by
  intro j job hjob
  rw [hjobs] at hjob
  by_cases hj : j = i
  · subst hj
    rw [update_self] at hjob
    exact h job hjob
  · rw [update_of_ne hj] at hjob
    exact .inr ⟨j, job, hjob, rfl⟩

theorem jobsFrom_set {i : ι} {job' : Job} (hjobs : s'.jobs = update s.jobs i (some job'))
    (h : TimeFrom s job') : JobsFrom s s' :=
  jobsFrom_update hjobs fun _ hjob => some.inj hjob ▸ h

theorem command_spec {i : ι} {job : Job} (hjob : s.jobs i = some job) :
    (command luatz s i job).now = s.now ∧ JobsFrom s (command luatz s i job) ∧
      Counters luatz s (command luatz s i job) := by
  have hkept : ∀ job' : Job, job'.current_timestamp = job.current_timestamp → TimeFrom s job' :=
    fun job' htime => .inr ⟨i, job, hjob, htime⟩
  unfold command
  split
  · exact ⟨rfl, jobsFrom_update rfl (by simp), .same rfl rfl rfl⟩
  · next period periods hperiods =>
    split
    · exact ⟨rfl, jobsFrom_set rfl (hkept _ rfl), .same rfl rfl rfl⟩
    · next expire hpc =>
      exact ⟨rfl, jobsFrom_set rfl (hkept _ (by split <;> rfl)), .incrby i job period hjob rfl rfl rfl⟩
    · exact ⟨rfl, jobsFrom_set rfl (hkept _ rfl), .expire i job period hjob rfl rfl rfl⟩

theorem step_cases (h : step luatz s e = some s') :
    (∃ milliseconds, e = .tick milliseconds ∧ s' = { s with now := s.now + milliseconds }) ∨
      (∀ milliseconds, e ≠ .tick milliseconds) ∧ s'.now = s.now ∧ JobsFrom s s' ∧ Counters luatz s s' := by
  cases e with
  | tick milliseconds =>
    cases h
    exact .inl ⟨milliseconds, rfl, rfl⟩
  | access i api_id identifier limits value =>
    simp only [step] at h
    split at h
    · cases h
      exact .inr ⟨nofun, rfl, jobsFrom_set rfl (.inl rfl), .same rfl rfl rfl⟩
    · cases h
  | command i =>
    simp only [step, map_eq_some_iff] at h
    obtain ⟨job, hjob, rfl⟩ := h
    exact .inr ⟨nofun, command_spec hjob⟩
  | fail i =>
    cases h
    exact .inr ⟨nofun, rfl, jobsFrom_update rfl (by simp), .same rfl rfl rfl⟩

/-! ## What holds in every run -/

/-- What was counted of the period that began at a date. -/
def counted (luatz : Luatz) (increments : List Increment) (api_id : ApiId) (identifier : String) (name : Period)
    (date : Nat) : Nat :=
  ((increments.filter fun x =>
    x.api_id = api_id ∧ x.identifier = identifier ∧ x.name = name ∧
      get_timestamps luatz x.current_timestamp name = date).map Increment.value).sum

/-- What holds whether or not a counter has expired too early. -/
structure Inv (luatz : Luatz) (s : System ι) : Prop where
  late : ms_check < get_utc s.now
  job : ∀ i job, s.jobs i = some job → ms_check < job.current_timestamp ∧ job.current_timestamp ≤ get_utc s.now
  made : ∀ x ∈ s.increments, ms_check < x.current_timestamp ∧ x.current_timestamp ≤ get_utc s.now
  cache : ∀ api_id identifier name date,
    (s.cache (get_local_key api_id identifier date name)).getD 0 = counted luatz s.increments api_id identifier name date
  /-- no counter is of a period to come -/
  future : ∀ api_id identifier name date,
    get_utc s.now < date → s.redis (get_local_key api_id identifier date name) = none

omit [DecidableEq ι] in
theorem Inv.ofStart (h : Start s) : Inv luatz s where
  late := h.late
  job i job hjob := by simp [h.jobs i] at hjob
  made x hx := by simp [h.increments] at hx
  cache _ _ _ _ := by simp [h.cache, h.increments, counted]
  future _ _ _ _ _ := h.redis _

variable {name : Period}

theorem counted_cons {increments : List Increment} {x : Increment} {api_id : ApiId} {identifier : String} {date : Nat} :
    counted luatz (x :: increments) api_id identifier name date =
      (if x.api_id = api_id ∧ x.identifier = identifier ∧ x.name = name ∧
          get_timestamps luatz x.current_timestamp name = date then x.value else 0) +
        counted luatz increments api_id identifier name date := by
  unfold counted
  rw [filter_cons]
  split <;> simp_all

theorem Inv.step (h : Inv luatz s) (hstep : step luatz s e = some s') : Inv luatz s' := by
  rcases step_cases hstep with ⟨d, -, rfl⟩ | ⟨-, hnow, hjobs, hcounters⟩
  · have hmono := get_utc_mono (Nat.le_add_right s.now d)
    exact
      { late   := Nat.lt_of_lt_of_le h.late hmono
        job    := fun i job hjob => ⟨(h.job i job hjob).1, Nat.le_trans (h.job i job hjob).2 hmono⟩
        made   := fun x hx => ⟨(h.made x hx).1, Nat.le_trans (h.made x hx).2 hmono⟩
        cache  := h.cache
        future := fun _ _ _ _ hdate => h.future _ _ _ _ (Nat.lt_of_le_of_lt hmono hdate) }
  · have hjob : ∀ i job, s'.jobs i = some job →
        ms_check < job.current_timestamp ∧ job.current_timestamp ≤ get_utc s.now := by
      intro i job hjob
      rcases hjobs i job hjob with htime | ⟨j, job₀, hjob₀, htime⟩
      · rw [htime]
        exact ⟨h.late, Nat.le_refl _⟩
      · rw [htime]
        exact h.job j job₀ hjob₀
    cases hcounters with
    | same hredis hcache hincrements =>
      exact
        { late   := hnow ▸ h.late
          job    := hnow ▸ hjob
          made   := by rw [hincrements, hnow]; exact h.made
          cache  := by rw [hincrements, hcache]; exact h.cache
          future := by rw [hredis, hnow]; exact h.future }
    | incrby i job period hi hredis hcache hincrements =>
      obtain ⟨hlate, hpast⟩ := h.job i job hi
      have hdate := get_timestamps_le luatz hlate period
      refine
        { late   := hnow ▸ h.late
          job    := hnow ▸ hjob
          made   := ?_
          cache  := ?_
          future := ?_ }
      · rw [hincrements, hnow]
        exact forall_mem_cons.mpr ⟨⟨hlate, hpast⟩, h.made⟩
      · intro api_id identifier name date
        rw [hincrements, hcache, counted_cons, ← h.cache]
        by_cases hkey : get_local_key api_id identifier date name =
            get_local_key job.api_id job.identifier (get_timestamps luatz job.current_timestamp period) period
        · obtain ⟨rfl, rfl, rfl, rfl⟩ := get_local_key_inj hkey
          rw [sh_incr_self, if_pos ⟨rfl, rfl, rfl, rfl⟩]
          exact Nat.add_comm _ _
        · rw [sh_incr_of_ne hkey, if_neg, Nat.zero_add]
          rintro ⟨rfl, rfl, rfl, rfl⟩
          exact hkey rfl
      · intro api_id identifier name date hfuture
        rw [hnow] at hfuture
        rw [hredis, Redis.incrby_of_ne]
        · exact h.future _ _ _ _ hfuture
        · intro hkey
          obtain ⟨-, -, rfl, -⟩ := get_local_key_inj hkey
          omega
    | expire i job period hi hredis hcache hincrements =>
      exact
        { late   := hnow ▸ h.late
          job    := hnow ▸ hjob
          made   := by rw [hincrements, hnow]; exact h.made
          cache  := by rw [hincrements, hcache]; exact h.cache
          future := fun _ _ _ _ hdate => by
            rw [hredis]
            exact Redis.expire_eq_none (h.future _ _ _ _ (hnow ▸ hdate)) }

omit [DecidableEq ι] in
/-- What was counted since a period began is what was counted of that period. -/
theorem Inv.total_eq (h : Inv luatz s) (api_id : ApiId) (identifier : String) (name : Period) :
    total s.increments api_id identifier name (get_timestamps luatz (get_utc s.now) name) =
      localUsage luatz s api_id identifier (get_utc s.now) name := by
  rw [localUsage, h.cache, total, counted]
  congr 2
  refine filter_congr fun x hx => ?_
  obtain ⟨hlate, hpast⟩ := h.made x hx
  have hsame : get_timestamps luatz (get_utc s.now) name ≤ x.current_timestamp ↔
      get_timestamps luatz x.current_timestamp name = get_timestamps luatz (get_utc s.now) name :=
    ⟨get_timestamps_eq_of_le hlate hpast, fun heq => heq ▸ get_timestamps_le _ hlate name⟩
  simp only [hsame]

/-! ## The two policies -/

/-- The two policies report the same of a period now. -/
def AgreeFor (luatz : Luatz) (name : Period) (s : System ι) : Prop :=
  ∀ api_id identifier,
    usage luatz s api_id identifier (get_utc s.now) name = localUsage luatz s api_id identifier (get_utc s.now) name

omit [DecidableEq ι] in
theorem Inv.rightFor_iff (h : Inv luatz s) : RightFor luatz name s ↔ AgreeFor luatz name s := by
  refine forall₂_congr fun api_id identifier => ?_
  rw [h.total_eq]
  exact and_self_iff

omit [DecidableEq ι] in
theorem Inv.right_iff (h : Inv luatz s) : Right luatz s ↔ ∀ name, AgreeFor luatz name s :=
  forall_congr' fun _ => h.rightFor_iff

def someApi : ApiId := ⟨"b7e9", by decide⟩

example : get_timestamps gregorian 1483228800000 .month = 1483228800000 := by decide +kernel

end OpenResty.Kong.RateLimiting
