import RazorCrypto.Common.Timestamps

/-!
# Shifting a timestamp back

`convert_to_epoch` takes a timestamp of 17 digits apart, subtracts the offset in seconds by
way of `mktime` and `localtime_r`, and then subtracts the last three digits of the offset once
more from the milliseconds, times a thousand and with one borrow at most. The result is right
only where these three digits are zero. A time that `mktime` gives as -1 is taken for an error.

The two library functions are those of a zone with a fixed distance from UTC.
-/

namespace RazorCrypto.Shm.ShmMdPlus

open Calendar WrappingTally MachineInt Common

/-- `mktime` and `localtime_r` in a zone of fixed distance from UTC, inverse to each other. -/
structure Zone where
  utcOffset : Int
  mktime : Tm → Int
  localtimeR : Int → Tm
  mktime_tmOf : ∀ t : DateTime, mktime (tmOf t) = t.seconds - epoch - utcOffset
  localtimeR_eq : ∀ t : DateTime, localtimeR (t.seconds - epoch - utcOffset) = tmOf t

/-- The last expression of `convert_to_epoch`. -/
def newTimestamp (tm : Tm) (millisecond : UInt64) : UInt64 :=
  UInt64.ofInt (tm.tmYear + 1900) * 10000000000000 + UInt64.ofInt (tm.tmMon + 1) * 100000000000 +
    UInt64.ofInt tm.tmMday * 1000000000 + UInt64.ofInt tm.tmHour * 10000000 +
    UInt64.ofInt tm.tmMin * 100000 + UInt64.ofInt tm.tmSec * 1000 + millisecond

/-- `convert_to_epoch`, nothing if it throws. -/
def convertToEpoch (zone : Zone) (datetime : UInt64) (offset : Int) : Option UInt64 :=
  let year := datetime.toNat / 10000000000000
  let month := datetime.toNat / 100000000000 % 100
  let day := datetime.toNat / 1000000000 % 100
  let hour := datetime.toNat / 10000000 % 100
  let minute := datetime.toNat / 100000 % 100
  let second := datetime.toNat / 1000 % 100
  let millisecond := datetime.toNat % 1000
  let tm : Tm :=
    { tmYear := asInt32 year - 1900
      tmMon := asInt32 month - 1
      tmMday := asInt32 day
      tmHour := asInt32 hour
      tmMin := asInt32 minute
      tmSec := asInt32 second }
  let time := zone.mktime tm
  if time = -1 then none
  else
    let time := time - offset
    let newMillisecond := asInt64 (millisecond - Int.tmod offset 1000 * 1000)
    if newMillisecond < 0 then
      some (newTimestamp (zone.localtimeR (time - 1)) (UInt64.ofInt (newMillisecond + 1000)))
    else some (newTimestamp (zone.localtimeR time) (UInt64.ofInt newMillisecond))

variable {t u : DateTime} {millis : Nat}

/-- The new timestamp is put together as `get_cur_ms` does it. -/
theorem newTimestamp_tmOf (t : DateTime) (millisecond : Int) :
    newTimestamp (tmOf t) (UInt64.ofInt millisecond) =
      UInt64.ofInt (t.packed * 1000 + millisecond) := by
  have words : (10000000000000 : UInt64) = UInt64.ofInt 10000000000000 ∧
      (100000000000 : UInt64) = UInt64.ofInt 100000000000 ∧
      (1000000000 : UInt64) = UInt64.ofInt 1000000000 ∧
      (10000000 : UInt64) = UInt64.ofInt 10000000 ∧ (100000 : UInt64) = UInt64.ofInt 100000 ∧
      (1000 : UInt64) = UInt64.ofInt 1000 := ⟨rfl, rfl, rfl, rfl, rfl, rfl⟩
  obtain ⟨w₁, w₂, w₃, w₄, w₅, w₆⟩ := words
  rw [newTimestamp, w₁, w₂, w₃, w₄, w₅, w₆]
  simp only [← UInt64.ofInt_mul, ← UInt64.ofInt_add]
  congr 1
  rw [DateTime.packed, Date.packed, tmOf]
  push_cast
  omega

/-- What is taken apart is the time that was written. -/
theorem convertToEpoch_getCurMs (zone : Zone) (year : t.date.year ≤ 9999) (milli : millis < 1000)
    (offset : Int) : convertToEpoch zone (getCurMs (tmOf t) millis) offset =
      if zone.mktime (tmOf t) = -1 then none
      else
        let newMillisecond := asInt64 (millis - Int.tmod offset 1000 * 1000)
        if newMillisecond < 0 then
          some (newTimestamp (zone.localtimeR (zone.mktime (tmOf t) - offset - 1))
            (UInt64.ofInt (newMillisecond + 1000)))
        else some (newTimestamp (zone.localtimeR (zone.mktime (tmOf t) - offset))
          (UInt64.ofInt newMillisecond)) := by
  have bounds := t.two_digits
  have int : ∀ n : Nat, n < 10000 → asInt32 n = n := fun n small =>
    asInt32_of_mem (by omega) (by omega)
  have digits : timestamp t millis = t.date.year * 10000000000000 + t.date.month * 100000000000 +
      t.date.day * 1000000000 + t.hour * 10000000 + t.minute * 100000 + t.second * 1000 +
      millis := by
    rw [timestamp, DateTime.packed, Date.packed]
    omega
  have y : timestamp t millis / 10000000000000 = t.date.year := by omega
  have m : timestamp t millis / 100000000000 % 100 = t.date.month := by omega
  have d : timestamp t millis / 1000000000 % 100 = t.date.day := by omega
  have H : timestamp t millis / 10000000 % 100 = t.hour := by omega
  have M : timestamp t millis / 100000 % 100 = t.minute := by omega
  have S : timestamp t millis / 1000 % 100 = t.second := by omega
  have ms : timestamp t millis % 1000 = millis := by omega
  rw [convertToEpoch, toNat_getCurMs year milli]
  simp only [y, m, d, H, M, S, ms]
  rw [int t.date.year (by omega), int t.date.month (by omega), int t.date.day (by omega),
    int t.hour (by omega), int t.minute (by omega), int t.second (by omega)]
  rfl

/-- A timestamp is not that of an earlier second with a number of milliseconds before it. -/
theorem ofInt_ne_of_earlier (lt : t.seconds < u.seconds) (year : u.date.year ≤ 9999)
    {earlier : Int} (milli : millis < 1000) (le : earlier ≤ millis) (ge : -1000000 ≤ earlier) :
    UInt64.ofInt (t.packed * 1000 + earlier) ≠ UInt64.ofInt (u.packed * 1000 + millis) := by
  intro same
  have order := DateTime.seconds_lt_iff.mp lt
  have bound := timestamp_lt year milli
  rw [timestamp] at bound
  have divides := Int.emod_eq_emod_iff_emod_sub_eq_zero.mp (emod_eq_of_ofInt_eq same).symm
  have distance : 0 < (u.packed : Int) * 1000 + millis - (t.packed * 1000 + earlier) := by omega
  rw [Int.emod_eq_of_lt distance.le (by omega)] at divides
  omega

/-- For every time and every offset that does not reach the beginning of the calendar: the
result is the timestamp of the earlier second with the same milliseconds exactly if the offset
is a multiple of 1000 and `mktime` does not give -1. -/
theorem convertToEpoch_exact_iff (zone : Zone) (t : DateTime) {millis : Nat}
    (year : t.date.year ≤ 9999) (milli : millis < 1000) {offset : Int} (nonneg : 0 ≤ offset)
    (reach : offset < t.seconds) : ∃ u : DateTime, (u.seconds : Int) + offset = t.seconds ∧
      (convertToEpoch zone (getCurMs (tmOf t) millis) offset = some (getCurMs (tmOf u) millis) ↔
        1000 ∣ offset ∧ (t.seconds : Int) - epoch - zone.utcOffset ≠ -1) := by
  obtain ⟨u, shifted⟩ : ∃ u : DateTime, u.seconds = t.seconds - offset.toNat :=
    ⟨_, DateTime.seconds_ofSeconds _⟩
  obtain ⟨v, before⟩ : ∃ v : DateTime, v.seconds = u.seconds - 1 :=
    ⟨_, DateTime.seconds_ofSeconds _⟩
  refine ⟨u, by omega, ?_⟩
  rw [convertToEpoch_getCurMs zone year milli, zone.mktime_tmOf]
  by_cases failed : (t.seconds : Int) - epoch - zone.utcOffset = -1
  · rw [if_pos failed]
    exact iff_of_false (by simp) fun h => h.2 failed
  · have digits : Int.tmod offset 1000 = offset % 1000 := Int.tmod_eq_emod_of_nonneg nonneg
    have low : 0 ≤ offset % 1000 := Int.emod_nonneg _ (by decide)
    have high : offset % 1000 < 1000 := Int.emod_lt_of_pos _ (by decide)
    have time : (t.seconds : Int) - epoch - zone.utcOffset - offset =
        u.seconds - epoch - zone.utcOffset := by omega
    have expected : getCurMs (tmOf u) millis = UInt64.ofInt (u.packed * 1000 + millis) := by
      rw [getCurMs_tmOf, timestamp]
      push_cast
      rfl
    rw [if_neg failed, digits, time, expected, asInt64_of_mem (by omega) (by omega)]
    dsimp only
    by_cases whole : offset % 1000 = 0
    · rw [whole, if_neg (by omega), zone.localtimeR_eq, newTimestamp_tmOf]
      refine iff_of_true ?_ ⟨Int.dvd_of_emod_eq_zero whole, failed⟩
      rw [Int.zero_mul, Int.sub_zero]
    · have earlier : (u.seconds : Int) - epoch - zone.utcOffset - 1 =
          v.seconds - epoch - zone.utcOffset := by omega
      rw [if_pos (by omega), earlier, zone.localtimeR_eq, newTimestamp_tmOf]
      refine iff_of_false ?_ fun h => whole (Int.emod_eq_zero_of_dvd h.1)
      intro same
      have yearU : u.date.year ≤ 9999 :=
        Nat.le_trans (DateTime.year_le_of_seconds_le (by omega)) year
      exact ofInt_ne_of_earlier (by omega) yearU milli (by omega) (by omega) (Option.some.inj same)

/-- The instant of a local time in a zone of fixed distance from UTC. -/
def instant (utcOffset : Int) (tm : Tm) : Int :=
  let year := (tm.tmYear + 1900).toNat
  let days := daysOfYears (year - 1) + (daysBeforeMonth (isLeap year) (tm.tmMon + 1).toNat +
    (tm.tmMday.toNat - 1))
  days * 86400 + tm.tmHour * 3600 + tm.tmMin * 60 + tm.tmSec - epoch - utcOffset

/-- The local time of an instant. -/
def localTime (utcOffset : Int) (time : Int) : Tm :=
  tmOf (.ofSeconds (time + utcOffset + epoch).toNat)

theorem instant_tmOf (utcOffset : Int) (t : DateTime) :
    instant utcOffset (tmOf t) = t.seconds - epoch - utcOffset := by
  have year : ((t.date.year : Int) - 1900 + 1900).toNat = t.date.year := by omega
  have month : ((t.date.month : Int) - 1 + 1).toNat = t.date.month := by omega
  simp only [instant, tmOf, year, month, Int.toNat_natCast]
  rw [DateTime.seconds, Date.dayNumber, Date.dayOfYear]
  push_cast
  rfl

theorem localTime_instant (utcOffset : Int) (t : DateTime) :
    localTime utcOffset (t.seconds - epoch - utcOffset) = tmOf t := by
  have seconds : ((t.seconds : Int) - epoch - utcOffset + utcOffset + epoch).toNat = t.seconds := by
    omega
  rw [localTime, seconds, DateTime.ofSeconds_seconds]

/-- A zone. -/
def Zone.fixed (utcOffset : Int) : Zone where
  utcOffset := utcOffset
  mktime := instant utcOffset
  localtimeR := localTime utcOffset
  mktime_tmOf := instant_tmOf utcOffset
  localtimeR_eq := localTime_instant utcOffset

/-- A thousand seconds before a leap day ends, eight hours from UTC. -/
theorem convertToEpoch_thousand : ∃ u : DateTime, (u.seconds : Int) + 1000 = leapDay.seconds ∧
    convertToEpoch (Zone.fixed 28800) (getCurMs (tmOf leapDay) 999) 1000 =
      some (getCurMs (tmOf u) 999) := by
  obtain ⟨u, earlier, exact⟩ := convertToEpoch_exact_iff (Zone.fixed 28800) leapDay
    (by decide) (show 999 < 1000 by decide) (show (0 : Int) ≤ 1000 by decide) (by decide)
  have time : (leapDay.seconds : Int) - epoch - (Zone.fixed 28800).utcOffset ≠ -1 := by decide
  exact ⟨u, earlier, exact.mpr ⟨⟨1, rfl⟩, time⟩⟩

/-- One and two seconds before the leap day ends. -/
def oneBefore : DateTime := { leapDay with second := 58, second_lt := by decide }

def twoBefore : DateTime := { leapDay with second := 57, second_lt := by decide }

/-- An offset of one second shifts back by two. -/
theorem convertToEpoch_one :
    convertToEpoch (Zone.fixed 28800) (getCurMs (tmOf leapDay) 999) 1 =
      some (getCurMs (tmOf twoBefore) 999) ∧
    getCurMs (tmOf twoBefore) 999 ≠ getCurMs (tmOf oneBefore) 999 := by
  refine ⟨?_, by decide +kernel⟩
  have time : (leapDay.seconds : Int) - epoch - (Zone.fixed 28800).utcOffset ≠ -1 := by decide
  have earlier : (leapDay.seconds : Int) - epoch - (Zone.fixed 28800).utcOffset - 1 - 1 =
      twoBefore.seconds - epoch - (Zone.fixed 28800).utcOffset := by
    decide
  have negative : asInt64 ((999 : Nat) - Int.tmod 1 1000 * 1000) = -1 := by decide +kernel
  have result := convertToEpoch_getCurMs (Zone.fixed 28800)
    (show leapDay.date.year ≤ 9999 by decide) (show 999 < 1000 by decide) 1
  rw [(Zone.fixed 28800).mktime_tmOf, if_neg time, negative] at result
  dsimp only at result
  rw [if_pos (by decide), earlier, (Zone.fixed 28800).localtimeR_eq, newTimestamp_tmOf] at result
  exact result.trans (congrArg some (by decide +kernel))

end RazorCrypto.Shm.ShmMdPlus
