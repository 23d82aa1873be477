import Mathlib.Tactic.IntervalCases
import RazorCrypto.Foundation.Calendar
import RazorCrypto.Foundation.Tally

/-!
# Timestamps of 17 digits

`get_cur_ms` writes a local time and its milliseconds as one decimal number, and
`cal_offset_sec` reads two such numbers and counts the seconds between them, with loops over
years and months and unsigned differences. Both agree with the calendar.
-/

namespace RazorCrypto.Common

open Calendar WrappingTally

/-- `tm`, as far as it is used. -/
structure Tm where
  tmYear : Int
  tmMon : Int
  tmMday : Int
  tmHour : Int
  tmMin : Int
  tmSec : Int

/-- The `tm` of a time. -/
def tmOf (t : DateTime) : Tm :=
  { tmYear := (t.date.year : Int) - 1900
    tmMon := (t.date.month : Int) - 1
    tmMday := t.date.day
    tmHour := t.hour
    tmMin := t.minute
    tmSec := t.second }

/-- `get_cur_ms`, at a local time and a number of milliseconds. -/
def getCurMs (localTime : Tm) (millis : Int) : UInt64 :=
  let timestamp : UInt64 := 0
  let timestamp := timestamp + UInt64.ofInt ((localTime.tmYear + 1900) * 10000000000000)
  let timestamp := timestamp + UInt64.ofInt ((localTime.tmMon + 1) * 100000000000)
  let timestamp := timestamp + UInt64.ofInt (localTime.tmMday * 1000000000)
  let timestamp := timestamp + UInt64.ofInt (localTime.tmHour * 10000000)
  let timestamp := timestamp + UInt64.ofInt (localTime.tmMin * 100000)
  let timestamp := timestamp + UInt64.ofInt (localTime.tmSec * 1000)
  timestamp + UInt64.ofInt millis

/-- `TimeComponents`. -/
structure TimeComponents where
  y : Int
  m : Int
  d : Int
  H : Int
  M : Int
  S : Int

/-- `isLeapYear`. -/
def isLeapYear (year : Int) : Bool := year % 4 == 0 && year % 100 != 0 || year % 400 == 0

/-- `DAYS_PER_MONTH`. -/
def DAYS_PER_MONTH (leap : Bool) : List UInt64 :=
  if leap then [31, 29, 31, 30, 31, 30, 31, 31, 30, 31, 30, 31]
  else [31, 28, 31, 30, 31, 30, 31, 31, 30, 31, 30, 31]

/-- The loop of `dateToSeconds` over the years. -/
def addYears (totalDays : UInt64) (year y : Int) : UInt64 :=
  if year < y then addYears (totalDays + if isLeapYear year then 366 else 365) (year + 1) y
  else totalDays
termination_by (y - year).toNat

/-- The loop over the months of the year `y`. -/
def addMonths (y : Int) (totalDays : UInt64) (month m : Int) : UInt64 :=
  if month < m then
    addMonths y (totalDays + (DAYS_PER_MONTH (isLeapYear y)).getD (month - 1).toNat 0) (month + 1) m
  else totalDays
termination_by (m - month).toNat

/-- `dateToSeconds`. -/
def dateToSeconds (y m d H M S : Int) : UInt64 :=
  let totalDays := UInt64.ofInt (d - 1)
  let totalDays := addYears totalDays 1970 y
  let totalDays := addMonths y totalDays 1 m
  totalDays * 86400 + UInt64.ofInt H * 3600 + UInt64.ofInt M * 60 + UInt64.ofInt S

/-- `extract` in `cal_offset_sec`. -/
def extract (ts : UInt64) : TimeComponents :=
  let ts := ts.toNat / 1000
  { y := (ts / 10000000000 % 10000 : Nat)
    m := (ts / 100000000 % 100 : Nat)
    d := (ts / 1000000 % 100 : Nat)
    H := (ts / 10000 % 100 : Nat)
    M := (ts / 100 % 100 : Nat)
    S := (ts % 100 : Nat) }

/-- `cal_offset_sec`. -/
def calOffsetSec (ts1 ts2 : UInt64) : UInt64 :=
  let t1 := extract ts1
  let t2 := extract ts2
  let sec1 := dateToSeconds t1.y t1.m t1.d t1.H t1.M t1.S
  let sec2 := dateToSeconds t2.y t2.m t2.d t2.H t2.M t2.S
  sec2 - sec1

example : calOffsetSec 20240228235959999 20240301000000000 = 86401 := by decide +kernel

/-! ## The encoding -/

/-- The digits of a time and its milliseconds. -/
def timestamp (t : DateTime) (millis : Nat) : Nat := t.packed * 1000 + millis

variable {t u : DateTime} {millis millis' : Nat}

theorem timestamp_lt (year : t.date.year ≤ 9999) (milli : millis < 1000) :
    timestamp t millis < 100000000000000000 := by
  have bounds := t.two_digits
  rw [timestamp, DateTime.packed, Date.packed]
  omega

/-- `get_cur_ms` writes these digits. -/
theorem getCurMs_tmOf (t : DateTime) (millis : Nat) :
    getCurMs (tmOf t) millis = UInt64.ofInt (timestamp t millis) := by
  have zero : (0 : UInt64) = UInt64.ofInt 0 := rfl
  simp only [getCurMs, zero, ← UInt64.ofInt_add]
  congr 1
  rw [timestamp, DateTime.packed, Date.packed, tmOf]
  push_cast
  omega

theorem toNat_getCurMs (year : t.date.year ≤ 9999) (milli : millis < 1000) :
    (getCurMs (tmOf t) millis).toNat = timestamp t millis := by
  have lt := timestamp_lt year milli
  rw [getCurMs_tmOf, toNat_ofInt, MachineInt.asUInt64_natCast (by omega)]

/-- `extract` reads them. -/
theorem extract_getCurMs (year : t.date.year ≤ 9999) (milli : millis < 1000) :
    extract (getCurMs (tmOf t) millis) =
      ⟨t.date.year, t.date.month, t.date.day, t.hour, t.minute, t.second⟩ := by
  have bounds := t.two_digits
  have digits : timestamp t millis / 1000 = t.packed := by
    rw [timestamp]
    omega
  rw [extract, toNat_getCurMs year milli, digits, DateTime.packed, Date.packed]
  congr 1 <;> omega

/-- Timestamps are ordered as they are in time. -/
theorem getCurMs_lt_iff (year : t.date.year ≤ 9999) (year' : u.date.year ≤ 9999)
    (milli : millis < 1000) (milli' : millis' < 1000) :
    getCurMs (tmOf t) millis < getCurMs (tmOf u) millis' ↔
      t.seconds * 1000 + millis < u.seconds * 1000 + millis' := by
  have less : t.seconds < u.seconds ↔ t.packed < u.packed := DateTime.seconds_lt_iff
  have more : u.seconds < t.seconds ↔ u.packed < t.packed := DateTime.seconds_lt_iff
  rw [UInt64.lt_iff_toNat_lt, toNat_getCurMs year milli, toNat_getCurMs year' milli',
    timestamp, timestamp]
  omega

/-! ## The seconds -/

/-- The library and the code agree on leap years. -/
theorem isLeapYear_natCast (year : Nat) : isLeapYear year = isLeap year := by
  apply Bool.eq_iff_iff.mpr
  simp only [isLeapYear, isLeap, Bool.or_eq_true, Bool.and_eq_true, beq_iff_eq, bne_iff_ne,
    decide_eq_true_eq]
  omega

/-- The year loop adds the days of the years from `a + 1` on. -/
theorem addYears_eq (days : Int) (a n : Nat) :
    addYears (UInt64.ofInt days) (a + 1 : Nat) (a + n + 1 : Nat) =
      UInt64.ofInt (days + daysOfYears (a + n) - daysOfYears a) := by
  induction n generalizing days a with
  | zero =>
      rw [addYears, if_neg (by omega), Nat.add_zero]
      congr 1
      omega
  | succ n ih =>
      have year : (if isLeapYear (a + 1 : Nat) then (366 : UInt64) else 365) =
          UInt64.ofInt (daysInYear (a + 1)) := by
        rw [isLeapYear_natCast, daysInYear]
        split <;> rfl
      have next : ((a + 1 : Nat) : Int) + 1 = (a + 1 + 1 : Nat) := rfl
      have later : a + (n + 1) + 1 = a + 1 + n + 1 := by omega
      have step := daysOfYears_succ a
      rw [addYears, if_pos (by omega), year, ← UInt64.ofInt_add, next, later, ih]
      congr 1
      rw [show a + 1 + n = a + (n + 1) by omega]
      omega

/-- The month loop adds the days of the months from `month` on. -/
theorem addMonths_eq (year : Nat) (days : Int) {month : Nat} (first : 1 ≤ month) {n : Nat}
    (last : month + n ≤ 12) :
    addMonths year (UInt64.ofInt days) month (month + n : Nat) =
      UInt64.ofInt (days + daysBeforeMonth (isLeap year) (month + n) -
        daysBeforeMonth (isLeap year) month) := by
  induction n generalizing days month with
  | zero =>
      rw [addMonths, if_neg (by omega), Nat.add_zero]
      congr 1
      omega
  | succ n ih =>
      have table : (DAYS_PER_MONTH (isLeap year)).getD ((month : Int) - 1).toNat 0 =
          UInt64.ofInt (daysInMonth (isLeap year) month) := by
        have le : month ≤ 12 := by omega
        cases isLeap year <;> interval_cases month <;> rfl
      have next : (month : Int) + 1 = (month + 1 : Nat) := rfl
      have later : month + (n + 1) = month + 1 + n := by omega
      have step := daysBeforeMonth_succ (isLeap year) first (show month ≤ 12 by omega)
      rw [addMonths, if_pos (by omega), isLeapYear_natCast, table, ← UInt64.ofInt_add, next, later,
        ih _ (Nat.le_add_left ..) (by omega)]
      congr 1
      omega

/-- The seconds from the beginning of the year 1 to that of 1970. -/
def epoch : Nat := daysOfYears 1969 * 86400

/-- `dateToSeconds` counts the seconds from the beginning of 1970. -/
theorem dateToSeconds_eq (t : DateTime) (year : 1970 ≤ t.date.year) :
    dateToSeconds t.date.year t.date.month t.date.day t.hour t.minute t.second =
      UInt64.ofInt (t.seconds - epoch) := by
  obtain ⟨n, fromEpoch⟩ := Nat.exists_eq_add_of_le year
  obtain ⟨k, fromJanuary⟩ := Nat.exists_eq_add_of_le t.date.month_pos
  have le := t.date.month_le
  have pos := t.date.day_pos
  have yearLoop := addYears_eq ((t.date.day : Int) - 1) 1969 n
  have monthLoop := addMonths_eq t.date.year
    ((t.date.day : Int) - 1 + daysOfYears (1969 + n) - daysOfYears 1969) (Nat.le_refl 1)
    (show 1 + k ≤ 12 by omega)
  have january : daysBeforeMonth (isLeap t.date.year) 1 = 0 := by
    cases isLeap t.date.year <;> rfl
  have before : 1969 + n = t.date.year - 1 := by omega
  have here : 1969 + n + 1 = t.date.year := by omega
  rw [here] at yearLoop
  rw [← fromJanuary, january] at monthLoop
  have year0 : ((1969 + 1 : Nat) : Int) = 1970 := rfl
  have month0 : ((1 : Nat) : Int) = 1 := rfl
  rw [year0] at yearLoop
  rw [month0] at monthLoop
  have words : (86400 : UInt64) = UInt64.ofInt 86400 ∧ (3600 : UInt64) = UInt64.ofInt 3600 ∧
      (60 : UInt64) = UInt64.ofInt 60 := ⟨rfl, rfl, rfl⟩
  rw [dateToSeconds, yearLoop, monthLoop, words.1, words.2.1, words.2.2]
  simp only [← UInt64.ofInt_mul, ← UInt64.ofInt_add]
  congr 1
  rw [DateTime.seconds, Date.dayNumber, Date.dayOfYear, before]
  unfold epoch
  generalize daysOfYears (t.date.year - 1) = years
  generalize daysOfYears 1969 = base
  generalize daysBeforeMonth (isLeap t.date.year) t.date.month = months
  omega

/-- With four digits for the year, the seconds are far from the end of 64 bits. -/
theorem seconds_lt (year : t.date.year ≤ 9999) : t.seconds < 1000000000000 := by
  have day := t.date.dayNumber_lt_year
  have bounds := t.two_digits
  rw [daysOfYears] at day
  rw [DateTime.seconds]
  omega

/-- The offset between two timestamps in order is the difference in seconds. -/
theorem toNat_calOffsetSec (first : 1970 ≤ t.date.year) (last : t.date.year ≤ 9999)
    (first' : 1970 ≤ u.date.year) (last' : u.date.year ≤ 9999) (milli : millis < 1000)
    (milli' : millis' < 1000) (le : t.seconds * 1000 + millis ≤ u.seconds * 1000 + millis') :
    ((calOffsetSec (getCurMs (tmOf t) millis) (getCurMs (tmOf u) millis')).toNat : Int) =
      u.seconds - t.seconds := by
  have bound := seconds_lt last'
  have difference : (u.seconds : Int) - epoch - (t.seconds - epoch) = u.seconds - t.seconds := by
    omega
  rw [calOffsetSec, extract_getCurMs last milli, extract_getCurMs last' milli']
  dsimp only
  rw [dateToSeconds_eq t first, dateToSeconds_eq u first', ← ofInt_sub, difference]
  exact toNat_ofInt_of_mem (by omega) (by omega)

/-- The two functions are calendar arithmetic on all times of the years 1970 to 9999:
timestamps are ordered as they are in time, and the offset is the difference in seconds. -/
theorem calOffsetSec_exact (t u : DateTime) {millis millis' : Nat} (first : 1970 ≤ t.date.year)
    (last : t.date.year ≤ 9999) (first' : 1970 ≤ u.date.year) (last' : u.date.year ≤ 9999)
    (milli : millis < 1000) (milli' : millis' < 1000) :
    (getCurMs (tmOf t) millis < getCurMs (tmOf u) millis' ↔
      t.seconds * 1000 + millis < u.seconds * 1000 + millis') ∧
    (t.seconds * 1000 + millis ≤ u.seconds * 1000 + millis' →
      ((calOffsetSec (getCurMs (tmOf t) millis) (getCurMs (tmOf u) millis')).toNat : Int) =
        u.seconds - t.seconds) := by
  refine ⟨getCurMs_lt_iff last last' milli milli', ?_⟩
  intro le
  exact toNat_calOffsetSec first last first' last' milli milli' le

/-- A leap day, to the day after it. -/
def leapDay : DateTime :=
  ⟨⟨2024, 2, 29, by decide, by decide, by decide, by decide, by decide⟩, 23, 59, 59,
    by decide, by decide, by decide⟩

def dayAfter : DateTime :=
  ⟨⟨2024, 3, 1, by decide, by decide, by decide, Nat.one_pos, by decide⟩, 0, 0, 1,
    by decide, by decide, by decide⟩

theorem calOffsetSec_exact_leapDay :
    ((calOffsetSec (getCurMs (tmOf leapDay) 999) (getCurMs (tmOf dayAfter) 0)).toNat : Int) =
      dayAfter.seconds - leapDay.seconds ∧ dayAfter.seconds - leapDay.seconds = 2 := by
  have exact := calOffsetSec_exact leapDay dayAfter (by decide) (by decide) (by decide) (by decide)
    (show 999 < 1000 by decide) (show 0 < 1000 by decide)
  exact ⟨exact.2 (by decide), by decide⟩

end RazorCrypto.Common
