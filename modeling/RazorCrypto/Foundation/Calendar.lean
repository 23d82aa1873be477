import Mathlib.Tactic.IntervalCases

/-!
# The proleptic Gregorian calendar

Dates of the years from 1 on, counted in days, and times of day, counted in seconds without
leap seconds. `dayNumber` is a closed form: the days of the years before, the days of the
months before, and the days of the month before. `next` leads to the date of every number of
days. Packed in decimal, dates and times are ordered as they are in time.
-/

namespace Calendar

/-- Leap years. -/
def isLeap (year : Nat) : Bool := year % 4 = 0 && year % 100 ≠ 0 || year % 400 = 0

def daysInYear (year : Nat) : Nat := if isLeap year then 366 else 365

/-- The days of the first `n` years. -/
def daysOfYears (n : Nat) : Nat := 365 * n + n / 4 - n / 100 + n / 400

/-- The days of a year before a month; month 13 is the next year. -/
def daysBeforeMonth (leap : Bool) (month : Nat) : Nat :=
  [0, 31, 59, 90, 120, 151, 181, 212, 243, 273, 304, 334, 365].getD (month - 1) 0 +
    if leap && 2 < month then 1 else 0

def daysInMonth (leap : Bool) (month : Nat) : Nat :=
  if month = 2 then if leap then 29 else 28
  else if month = 4 ∨ month = 6 ∨ month = 9 ∨ month = 11 then 30 else 31

theorem isLeap_iff (year : Nat) : isLeap year = true ↔ 4 ∣ year ∧ (100 ∣ year → 400 ∣ year) := by
  simp only [isLeap, Bool.or_eq_true, Bool.and_eq_true, decide_eq_true_eq, Nat.dvd_iff_mod_eq_zero]
  omega

theorem daysOfYears_succ (n : Nat) : daysOfYears (n + 1) = daysOfYears n + daysInYear (n + 1) := by
  have century : 100 ∣ n + 1 → 4 ∣ n + 1 := Nat.dvd_trans (by decide)
  have centuries : 400 ∣ n + 1 → 100 ∣ n + 1 := Nat.dvd_trans (by decide)
  have order : n / 100 ≤ n / 4 := Nat.div_le_div_left (by decide) (by decide)
  rw [daysOfYears, daysOfYears, daysInYear, Nat.succ_div, Nat.succ_div, Nat.succ_div]
  simp only [isLeap_iff]
  by_cases four : 4 ∣ n + 1
  · by_cases hundred : 100 ∣ n + 1
    · by_cases fourHundred : 400 ∣ n + 1
      · simp [four, hundred, fourHundred]
        omega
      · simp [four, hundred, fourHundred]
        omega
    · have fourHundred := mt centuries hundred
      simp [four, hundred, fourHundred]
      omega
  · have hundred := mt century four
    have fourHundred := mt centuries hundred
    simp [four, hundred, fourHundred]
    omega

theorem daysOfYears_mono {m n : Nat} (le : m ≤ n) : daysOfYears m ≤ daysOfYears n := by
  induction le with
  | refl => exact Nat.le_refl _
  | step _ ih =>
      rw [daysOfYears_succ]
      exact Nat.le_add_right_of_le ih

theorem daysBeforeMonth_succ (leap : Bool) {month : Nat} (first : 1 ≤ month) (last : month ≤ 12) :
    daysBeforeMonth leap (month + 1) = daysBeforeMonth leap month + daysInMonth leap month := by
  cases leap <;> interval_cases month <;> rfl

theorem daysBeforeMonth_mono (leap : Bool) {m n : Nat} (first : 1 ≤ m) (le : m ≤ n)
    (last : n ≤ 13) : daysBeforeMonth leap m ≤ daysBeforeMonth leap n := by
  induction le with
  | refl => exact Nat.le_refl _
  | @step n le ih =>
      rw [daysBeforeMonth_succ leap (Nat.le_trans first le) (Nat.le_of_succ_le_succ last)]
      exact Nat.le_add_right_of_le (ih (Nat.le_of_succ_le last))

theorem daysBeforeMonth_last (year : Nat) :
    daysBeforeMonth (isLeap year) 13 = daysInYear year := by
  rw [daysInYear]
  cases isLeap year <;> rfl

theorem daysInMonth_pos (leap : Bool) (month : Nat) : 1 ≤ daysInMonth leap month := by
  rw [daysInMonth]
  split
  · split <;> decide
  · split <;> decide

theorem daysInMonth_le (leap : Bool) (month : Nat) : daysInMonth leap month ≤ 31 := by
  rw [daysInMonth]
  split
  · split <;> decide
  · split <;> decide

/-! ## Dates -/

/-- A date of the calendar. -/
@[ext] structure Date where
  year : Nat
  month : Nat
  day : Nat
  year_pos : 1 ≤ year
  month_pos : 1 ≤ month
  month_le : month ≤ 12
  day_pos : 1 ≤ day
  day_le : day ≤ daysInMonth (isLeap year) month

namespace Date

/-- The days of the year before the date. -/
def dayOfYear (d : Date) : Nat := daysBeforeMonth (isLeap d.year) d.month + (d.day - 1)

/-- The days from the first of January of the year 1 to the date. -/
def dayNumber (d : Date) : Nat := daysOfYears (d.year - 1) + d.dayOfYear

/-- The decimal digits of year, month and day in a row. -/
def packed (d : Date) : Nat := d.year * 10000 + d.month * 100 + d.day

/-- The first day. -/
def first : Date := ⟨1, 1, 1, by decide, by decide, by decide, by decide, by decide⟩

variable (d e : Date)

theorem day_lt : d.day < 32 :=
  Nat.lt_succ_of_le (Nat.le_trans d.day_le (daysInMonth_le _ _))

/-- Months and days have two digits. -/
theorem two_digits : d.month ≤ 12 ∧ d.day < 32 := ⟨d.month_le, d.day_lt⟩

/-- A day of a month comes before the next month. -/
theorem dayOfYear_lt_month :
    d.dayOfYear < daysBeforeMonth (isLeap d.year) (d.month + 1) := by
  have days := daysBeforeMonth_succ (isLeap d.year) d.month_pos d.month_le
  have pos := d.day_pos
  have le := d.day_le
  rw [dayOfYear]
  omega

theorem dayOfYear_lt : d.dayOfYear < daysInYear d.year := by
  have month := d.dayOfYear_lt_month
  have last := daysBeforeMonth_mono (isLeap d.year) (Nat.le_add_left 1 d.month)
    (Nat.succ_le_succ d.month_le) (Nat.le_refl 13)
  rw [daysBeforeMonth_last] at last
  omega

/-- A day of a year comes before the next year. -/
theorem dayNumber_lt_year : d.dayNumber < daysOfYears d.year := by
  have year := daysOfYears_succ (d.year - 1)
  rw [Nat.sub_add_cancel d.year_pos] at year
  have day := d.dayOfYear_lt
  rw [dayNumber]
  omega

variable {d e}

/-- Dates in decimal are ordered as they are in time. -/
theorem dayNumber_lt_of_packed_lt (lt : d.packed < e.packed) : d.dayNumber < e.dayNumber := by
  have digits := d.two_digits
  have digits' := e.two_digits
  have cases : d.year < e.year ∨ d.year = e.year ∧ (d.month < e.month ∨
      d.month = e.month ∧ d.day < e.day) := by
    rw [packed, packed] at lt
    omega
  obtain year | ⟨year, month | ⟨month, day⟩⟩ := cases
  · calc d.dayNumber < daysOfYears d.year := d.dayNumber_lt_year
      _ ≤ daysOfYears (e.year - 1) := daysOfYears_mono (Nat.le_sub_one_of_lt year)
      _ ≤ e.dayNumber := Nat.le_add_right ..
  · have before := d.dayOfYear_lt_month
    have mono := daysBeforeMonth_mono (isLeap d.year) (Nat.le_add_left 1 d.month) month
      (Nat.le_succ_of_le e.month_le)
    rw [dayNumber, dayNumber, ← year]
    rw [year] at before mono
    have after : daysBeforeMonth (isLeap e.year) e.month ≤ e.dayOfYear := Nat.le_add_right ..
    rw [← year] at after before mono
    omega
  · have pos := d.day_pos
    rw [dayNumber, dayNumber, dayOfYear, dayOfYear, year, month]
    omega

theorem eq_of_packed_eq (same : d.packed = e.packed) : d = e := by
  have digits := d.two_digits
  have digits' := e.two_digits
  rw [packed, packed] at same
  apply Date.ext <;> omega

theorem dayNumber_lt_iff : d.dayNumber < e.dayNumber ↔ d.packed < e.packed := by
  constructor
  · intro earlier
    by_contra notLess
    obtain later | same := Nat.lt_or_eq_of_le (Nat.le_of_not_lt notLess)
    · exact absurd (dayNumber_lt_of_packed_lt later) (Nat.lt_asymm earlier)
    · rw [eq_of_packed_eq same] at earlier
      exact Nat.lt_irrefl _ earlier
  · exact dayNumber_lt_of_packed_lt

/-! ## The next day -/

/-- The next day, in the same month, in the next month or in the next year. -/
def next (d : Date) : Date :=
  if inMonth : d.day < daysInMonth (isLeap d.year) d.month then
    { d with day := d.day + 1, day_pos := Nat.le_add_left .., day_le := inMonth }
  else if inYear : d.month < 12 then
    { d with
      month := d.month + 1, day := 1, month_pos := Nat.le_add_left .., month_le := inYear
      day_pos := Nat.le_refl 1, day_le := daysInMonth_pos .. }
  else
    { year := d.year + 1, month := 1, day := 1, year_pos := Nat.le_add_left ..
      month_pos := Nat.le_refl 1, month_le := by decide, day_pos := Nat.le_refl 1
      day_le := daysInMonth_pos .. }

theorem dayNumber_next (d : Date) : d.next.dayNumber = d.dayNumber + 1 := by
  have pos := d.day_pos
  have le := d.day_le
  have days := daysBeforeMonth_succ (isLeap d.year) d.month_pos d.month_le
  rw [next]
  split
  · rw [dayNumber, dayNumber, dayOfYear, dayOfYear]
    dsimp only
    omega
  · split
    · rw [dayNumber, dayNumber, dayOfYear, dayOfYear]
      dsimp only
      omega
    · next lastDay lastMonth =>
        have month : d.month = 12 := by
          have le := d.month_le
          omega
        have year := daysOfYears_succ (d.year - 1)
        rw [Nat.sub_add_cancel d.year_pos] at year
        rw [month] at days lastDay le
        rw [daysBeforeMonth_last] at days
        have january : daysBeforeMonth (isLeap (d.year + 1)) 1 = 0 := by
          cases isLeap (d.year + 1) <;> rfl
        rw [dayNumber, dayNumber, dayOfYear, dayOfYear]
        dsimp only
        rw [january, Nat.add_sub_cancel, month]
        omega

/-- The date of a number of days. -/
def ofDayNumber : Nat → Date
  | 0 => first
  | n + 1 => (ofDayNumber n).next

theorem dayNumber_ofDayNumber (n : Nat) : (ofDayNumber n).dayNumber = n := by
  induction n with
  | zero => rfl
  | succ n ih => rw [ofDayNumber, dayNumber_next, ih]

end Date

/-! ## Times -/

/-- A second of a date. -/
@[ext] structure DateTime where
  date : Date
  hour : Nat
  minute : Nat
  second : Nat
  hour_lt : hour < 24
  minute_lt : minute < 60
  second_lt : second < 60

namespace DateTime

/-- The seconds from the beginning of the year 1. -/
def seconds (t : DateTime) : Nat :=
  t.date.dayNumber * 86400 + t.hour * 3600 + t.minute * 60 + t.second

/-- The decimal digits of the date and of hour, minute and second in a row. -/
def packed (t : DateTime) : Nat :=
  t.date.packed * 1000000 + t.hour * 10000 + t.minute * 100 + t.second

variable {t u : DateTime}

/-- Everything but the year has two digits. -/
theorem two_digits (t : DateTime) : t.date.month ≤ 12 ∧ t.date.day < 32 ∧ t.hour < 24 ∧
    t.minute < 60 ∧ t.second < 60 :=
  ⟨t.date.month_le, t.date.day_lt, t.hour_lt, t.minute_lt, t.second_lt⟩

/-- Times in decimal are ordered as they are in time. -/
theorem seconds_lt_iff : t.seconds < u.seconds ↔ t.packed < u.packed := by
  have digits := t.two_digits
  have digits' := u.two_digits
  have before : t.date.dayNumber < u.date.dayNumber ↔ t.date.packed < u.date.packed :=
    Date.dayNumber_lt_iff
  have after : u.date.dayNumber < t.date.dayNumber ↔ u.date.packed < t.date.packed :=
    Date.dayNumber_lt_iff
  rw [seconds, seconds, packed, packed]
  obtain less | same | more := Nat.lt_trichotomy t.date.packed u.date.packed
  · have days := before.mpr less
    exact iff_of_true (by omega) (by omega)
  · have days : t.date.dayNumber = u.date.dayNumber := by omega
    rw [days, same]
    omega
  · have days := after.mpr more
    exact iff_of_false (by omega) (by omega)

theorem packed_injective (same : t.packed = u.packed) : t = u := by
  have digits := t.two_digits
  have digits' := u.two_digits
  rw [packed, packed] at same
  have date : t.date = u.date := Date.eq_of_packed_eq (by omega)
  rw [date] at same
  exact DateTime.ext date (by omega) (by omega) (by omega)

theorem seconds_injective (same : t.seconds = u.seconds) : t = u := by
  apply packed_injective
  have less := mt seconds_lt_iff.mpr (Nat.le_of_eq same.symm).not_gt
  have more := mt seconds_lt_iff.mpr (Nat.le_of_eq same).not_gt
  omega

/-- An earlier time has no later year. -/
theorem year_le_of_seconds_le (le : t.seconds ≤ u.seconds) : t.date.year ≤ u.date.year := by
  have order := mt seconds_lt_iff.mpr le.not_gt
  have digits := u.two_digits
  rw [packed, packed, Date.packed, Date.packed] at order
  omega

/-- The time of a number of seconds. -/
def ofSeconds (n : Nat) : DateTime :=
  { date := Date.ofDayNumber (n / 86400)
    hour := n % 86400 / 3600
    minute := n % 3600 / 60
    second := n % 60
    hour_lt := by omega
    minute_lt := by omega
    second_lt := by omega }

theorem seconds_ofSeconds (n : Nat) : (ofSeconds n).seconds = n := by
  rw [seconds, ofSeconds, Date.dayNumber_ofDayNumber]
  dsimp only
  omega

theorem ofSeconds_seconds (t : DateTime) : ofSeconds t.seconds = t :=
  seconds_injective (seconds_ofSeconds _)

end DateTime
end Calendar
