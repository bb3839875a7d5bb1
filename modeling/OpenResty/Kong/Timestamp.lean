/-
`kong.tools.timestamp`: the timestamps of the periods that a time is in.

The calendar itself is the package `luatz`, taken here by what its
documentation says of it: a timetable has the fields of a date and a time of
day, later timetables have later timestamps, and the first moment of a period is
the moment whose smaller fields are the least. `gregorian` is such a calendar.
-/
import Mathlib.Algebra.Order.Ring.Nat
import Mathlib.Data.Nat.Find

namespace OpenResty.Kong.Timestamp

open Nat

inductive Period
  | second
  | minute
  | hour
  | day
  | month
  | year
  deriving DecidableEq

structure Timetable where
  year : Nat
  month : Nat
  day : Nat
  hour : Nat
  min : Nat
  sec : Nat

namespace Timetable

/-- Not later, field by field. -/
def le (a b : Timetable) : Prop :=
  a.year < b.year ∨ a.year = b.year ∧
    (a.month < b.month ∨ a.month = b.month ∧
      (a.day < b.day ∨ a.day = b.day ∧
        (a.hour < b.hour ∨ a.hour = b.hour ∧ (a.min < b.min ∨ a.min = b.min ∧ a.sec ≤ b.sec))))

/-- The first moment of the period that a moment is in. -/
def first (tt : Timetable) : Period → Timetable
  | .second => tt
  | .minute => { tt with sec := 0 }
  | .hour => { tt with min := 0, sec := 0 }
  | .day => { tt with hour := 0, min := 0, sec := 0 }
  | .month => { tt with day := 1, hour := 0, min := 0, sec := 0 }
  | .year => { tt with month := 1, day := 1, hour := 0, min := 0, sec := 0 }

theorem le_antisymm {a b : Timetable} (hab : a.le b) (hba : b.le a) : a = b := by
  obtain ⟨y, mo, d, h, mi, s⟩ := a
  obtain ⟨y', mo', d', h', mi', s'⟩ := b
  simp only [le] at hab hba
  simp only [mk.injEq]
  omega

theorem first_le {tt : Timetable} (hmonth : 1 ≤ tt.month) (hday : 1 ≤ tt.day) (p : Period) : (tt.first p).le tt := by
  cases p <;> simp only [first, le, true_and] <;> omega

/-- Between the first moment of a period and a moment in it there is no other
period. -/
theorem first_eq_of_le {a b : Timetable} {p : Period} (hfirst : (a.first p).le b) (hle : b.le a) :
    b.first p = a.first p := by
  obtain ⟨y, mo, d, h, mi, s⟩ := a
  obtain ⟨y', mo', d', h', mi', s'⟩ := b
  cases p <;> simp only [first, le] at hfirst hle <;> simp only [first, mk.injEq, and_true] <;> omega

end Timetable

/-- The package: `timetable.new_from_timestamp` and the method `timestamp`, in
seconds. -/
structure Luatz where
  new_from_timestamp : Nat → Timetable
  timestamp : Timetable → Nat
  timestamp_new : ∀ t, timestamp (new_from_timestamp t) = t
  new_timestamp : ∀ t p,
    new_from_timestamp (timestamp ((new_from_timestamp t).first p)) = (new_from_timestamp t).first p
  new_mono : ∀ t u, t ≤ u → (new_from_timestamp t).le (new_from_timestamp u)
  one_le_month : ∀ t, 1 ≤ (new_from_timestamp t).month
  one_le_day : ∀ t, 1 ≤ (new_from_timestamp t).day

/-- `tt(20000, 1, 1, 0, 0, 0):timestamp()` -/
def ms_check : Nat := 568971820800

/-- `get_utc`, where `tz_time` is `now` in milliseconds. -/
def get_utc (now : Nat) : Nat := now / 1000 * 1000

def get_timetable (luatz : Luatz) (now : Nat) : Timetable :=
  if ms_check < now then luatz.new_from_timestamp (now / 1000) else luatz.new_from_timestamp now

def get_timestamps (luatz : Luatz) (now : Nat) : Period → Nat :=
  let timetable := get_timetable luatz now
  let minute := { timetable with sec := 0 }
  let hour := { minute with min := 0 }
  let day := { hour with hour := 0 }
  let month := { day with day := 1 }
  let year := { month with month := 1 }
  fun
    | .second => luatz.timestamp timetable * 1000
    | .minute => luatz.timestamp minute * 1000
    | .hour => luatz.timestamp hour * 1000
    | .day => luatz.timestamp day * 1000
    | .month => luatz.timestamp month * 1000
    | .year => luatz.timestamp year * 1000

namespace Luatz

variable (luatz : Luatz) {t u : Nat}

/-- When the period of a moment began, in seconds. -/
def start (p : Period) (t : Nat) : Nat := luatz.timestamp ((luatz.new_from_timestamp t).first p)

theorem start_le (p : Period) (t : Nat) : luatz.start p t ≤ t := by
  by_contra hlt
  have hle := luatz.new_mono t (luatz.start p t) (by omega)
  rw [start, luatz.new_timestamp] at hle
  have heq := Timetable.le_antisymm hle (Timetable.first_le (luatz.one_le_month t) (luatz.one_le_day t) p)
  have hstart : luatz.start p t = t := by rw [start, ← heq, luatz.timestamp_new]
  omega

theorem start_eq_of_le {p : Period} (hstart : luatz.start p t ≤ u) (hle : u ≤ t) : luatz.start p u = luatz.start p t := by
  have hfirst := luatz.new_mono _ _ hstart
  rw [start, luatz.new_timestamp] at hfirst
  rw [start, start, Timetable.first_eq_of_le hfirst (luatz.new_mono _ _ hle)]

end Luatz

theorem get_timestamps_eq (luatz : Luatz) {now : Nat} (h : ms_check < now) (p : Period) :
    get_timestamps luatz now p = luatz.start p (now / 1000) * 1000 := by
  cases p <;> simp [get_timestamps, get_timetable, h, Luatz.start, Timetable.first]

/-! ## The Gregorian calendar -/

def isLeap (year : Nat) : Bool := year % 4 = 0 && (year % 100 ≠ 0 || year % 400 = 0)

/-- The days from 1970 until a number of years after. -/
def newYear : Nat → Nat
  | 0 => 0
  | n + 1 => newYear n + if isLeap (1970 + n) then 366 else 365

/-- The days of a year until a number of months after its first. -/
def newMonth (leap : Bool) (n : Nat) : Nat :=
  ([31, if leap then 29 else 28, 31, 30, 31, 30, 31, 31, 30, 31, 30].take n).sum

def yearAt (day : Nat) : Nat := findGreatest (newYear · ≤ day) (day / 365)

def monthAt (leap : Bool) (day : Nat) : Nat := findGreatest (newMonth leap · ≤ day) 11

theorem le_newYear (n : Nat) : 365 * n ≤ newYear n := by
  induction n with
  | zero => simp [newYear]
  | succ n ih =>
    rw [newYear]
    split <;> omega

theorem newYear_yearAt (day : Nat) : newYear (yearAt day) ≤ day :=
  findGreatest_spec (P := (newYear · ≤ day)) (Nat.zero_le _) (Nat.zero_le _)

theorem le_yearAt {n day : Nat} (h : newYear n ≤ day) : n ≤ yearAt day := by
  have hn := le_newYear n
  exact le_findGreatest (by omega) h

variable {d e : Nat}

theorem yearAt_mono (h : d ≤ e) : yearAt d ≤ yearAt e := le_yearAt (Nat.le_trans (newYear_yearAt d) h)

theorem yearAt_eq (hlow : newYear (yearAt d) ≤ e) (hle : e ≤ d) : yearAt e = yearAt d :=
  Nat.le_antisymm (yearAt_mono hle) (le_yearAt hlow)

theorem newMonth_monthAt (leap : Bool) (day : Nat) : newMonth leap (monthAt leap day) ≤ day :=
  findGreatest_spec (P := (newMonth leap · ≤ day)) (Nat.zero_le _) (by simp [newMonth])

theorem monthAt_le (leap : Bool) (day : Nat) : monthAt leap day ≤ 11 := findGreatest_le 11

theorem monthAt_mono (leap : Bool) (h : d ≤ e) : monthAt leap d ≤ monthAt leap e :=
  le_findGreatest (monthAt_le leap d) (Nat.le_trans (newMonth_monthAt leap d) h)

theorem newMonth_zero (leap : Bool) : newMonth leap 0 = 0 := rfl

theorem monthAt_zero (leap : Bool) : monthAt leap 0 = 0 := by
  cases leap <;> decide

theorem monthAt_eq {leap : Bool} (hlow : newMonth leap (monthAt leap d) ≤ e) (hle : e ≤ d) :
    monthAt leap e = monthAt leap d :=
  Nat.le_antisymm (monthAt_mono leap hle) (le_findGreatest (monthAt_le leap d) hlow)

namespace Gregorian

def new_from_timestamp (t : Nat) : Timetable :=
  let days := t / 86400
  let years := yearAt days
  let leap := isLeap (1970 + years)
  let day := days - newYear years
  { year  := 1970 + years
    month := monthAt leap day + 1
    day   := day - newMonth leap (monthAt leap day) + 1
    hour  := t % 86400 / 3600
    min   := t % 3600 / 60
    sec   := t % 60 }

def timestamp (tt : Timetable) : Nat :=
  (newYear (tt.year - 1970) + newMonth (isLeap tt.year) (tt.month - 1) + (tt.day - 1)) * 86400 +
    tt.hour * 3600 + tt.min * 60 + tt.sec

theorem timestamp_new (t : Nat) : timestamp (new_from_timestamp t) = t := by
  have hyear := newYear_yearAt (t / 86400)
  have hmonth := newMonth_monthAt (isLeap (1970 + yearAt (t / 86400))) (t / 86400 - newYear (yearAt (t / 86400)))
  simp only [timestamp, new_from_timestamp, Nat.add_sub_cancel_left, Nat.add_sub_cancel]
  omega

theorem new_mono {t u : Nat} (h : t ≤ u) : (new_from_timestamp t).le (new_from_timestamp u) := by
  have hdays : t / 86400 ≤ u / 86400 := Nat.div_le_div_right h
  have hyear := yearAt_mono hdays
  simp only [Timetable.le, new_from_timestamp]
  rcases Nat.lt_or_eq_of_le hyear with hlt | heq
  · exact .inl (by omega)
  refine .inr ⟨by rw [heq], ?_⟩
  rw [heq]
  generalize hd : t / 86400 - newYear (yearAt (u / 86400)) = d
  generalize he : u / 86400 - newYear (yearAt (u / 86400)) = e
  have hde : d ≤ e := by omega
  have hmonth := monthAt_mono (isLeap (1970 + yearAt (u / 86400))) hde
  rcases Nat.lt_or_eq_of_le hmonth with hlt | heq'
  · exact .inl (by omega)
  have ht := newYear_yearAt (t / 86400)
  have hm := newMonth_monthAt (isLeap (1970 + yearAt (u / 86400))) d
  rw [heq] at ht
  refine .inr ⟨by rw [heq'], ?_⟩
  rw [heq'] at hm ⊢
  omega

/-- A valid timetable is that of its timestamp. -/
theorem new_of_timestamp {years months day hour min sec : Nat}
    (hyear : yearAt (newYear years + newMonth (isLeap (1970 + years)) months + day) = years)
    (hmonth : monthAt (isLeap (1970 + years)) (newMonth (isLeap (1970 + years)) months + day) = months)
    (hhour : hour < 24) (hmin : min < 60) (hsec : sec < 60) :
    new_from_timestamp (timestamp ⟨1970 + years, months + 1, day + 1, hour, min, sec⟩) =
      ⟨1970 + years, months + 1, day + 1, hour, min, sec⟩ := by
  simp only [timestamp, Nat.add_sub_cancel_left, Nat.add_sub_cancel]
  generalize hm : newMonth (isLeap (1970 + years)) months = m at hyear hmonth ⊢
  generalize hx : (newYear years + m + day) * 86400 + hour * 3600 + min * 60 + sec = x
  have hdays : x / 86400 = newYear years + m + day := by omega
  have hday : newYear years + m + day - newYear years = m + day := by omega
  simp only [new_from_timestamp, hdays, hyear, hday, hmonth, hm, Timetable.mk.injEq, true_and]
  omega

theorem new_timestamp (t : Nat) (p : Period) :
    new_from_timestamp (timestamp ((new_from_timestamp t).first p)) = (new_from_timestamp t).first p := by
  generalize hdays : t / 86400 = days
  generalize hyears : yearAt days = years
  generalize hmonths : monthAt (isLeap (1970 + years)) (days - newYear years) = months
  have hyear : newYear years ≤ days := hyears ▸ newYear_yearAt days
  have hmonth : newMonth (isLeap (1970 + years)) months ≤ days - newYear years := hmonths ▸ newMonth_monthAt _ _
  obtain ⟨day, hday⟩ := Nat.exists_eq_add_of_le hmonth
  -- the first moment has the same year, and the same month unless the period is a year
  have hyearAt : ∀ e, newYear years ≤ e → e ≤ days → yearAt e = years := by
    intro e hlow hle
    subst hyears
    exact yearAt_eq hlow hle
  have hmonthAt : ∀ e, newMonth (isLeap (1970 + years)) months ≤ e → e ≤ days - newYear years →
      monthAt (isLeap (1970 + years)) e = months := by
    intro e hlow hle
    subst hmonths
    exact monthAt_eq hlow hle
  have hsame := hyearAt (newYear years + newMonth (isLeap (1970 + years)) months + day) (by omega) (by omega)
  have hsame' := hmonthAt (newMonth (isLeap (1970 + years)) months + day) (by omega) (by omega)
  have hnew : new_from_timestamp t =
      ⟨1970 + years, months + 1, day + 1, t % 86400 / 3600, t % 3600 / 60, t % 60⟩ := by
    simp only [new_from_timestamp, hdays, hyears, hday, hsame', Nat.add_sub_cancel_left]
  rw [hnew]
  cases p <;> simp only [Timetable.first]
  case second | minute | hour | day => exact new_of_timestamp hsame hsame' (by omega) (by omega) (by omega)
  case month =>
    exact new_of_timestamp (hyearAt _ (by omega) (by omega)) (hmonthAt _ (by omega) (by omega)) (by omega) (by omega)
      (by omega)
  case year =>
    refine new_of_timestamp ?_ ?_ (by omega) (by omega) (by omega)
    · rw [newMonth_zero]
      exact hyearAt _ (by omega) (by omega)
    · rw [newMonth_zero]
      exact monthAt_zero _

end Gregorian

/-- The calendar in use. -/
def gregorian : Luatz where
  new_from_timestamp := Gregorian.new_from_timestamp
  timestamp := Gregorian.timestamp
  timestamp_new := Gregorian.timestamp_new
  new_timestamp := Gregorian.new_timestamp
  new_mono _ _ := Gregorian.new_mono
  one_le_month _ := Nat.le_add_left 1 _
  one_le_day _ := Nat.le_add_left 1 _

end OpenResty.Kong.Timestamp
