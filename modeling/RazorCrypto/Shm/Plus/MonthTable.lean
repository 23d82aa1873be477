import RazorCrypto.Common.Timestamps
import RazorCrypto.Shm.Plus.Query

/-!
# The table of months in a query between two times

The `get_md` of four arguments computes `offset_sec` from its two times before anything is
checked. The month is two digits of an arbitrary number, and the loop over the months reads
one entry of `DAYS_PER_MONTH` for each month before it. Here these reads are listed.
-/

universe u

namespace RazorCrypto

open Calendar Common Shm

namespace Common

/-- The accesses `DAYS_PER_MONTH[leap][month - 1]` of the loop over the months. -/
def monthAccesses (leap : Bool) (month m : Int) : List (Bool × Int) :=
  if month < m then (leap, month - 1) :: monthAccesses leap (month + 1) m else []
termination_by (m - month).toNat

/-- The accesses of `dateToSeconds`. -/
def dateToSecondsAccesses (y m : Int) : List (Bool × Int) := monthAccesses (isLeapYear y) 1 m

/-- The accesses of `cal_offset_sec`. -/
def calOffsetSecAccesses (ts1 ts2 : UInt64) : List (Bool × Int) :=
  let t1 := extract ts1
  let t2 := extract ts2
  dateToSecondsAccesses t1.y t1.m ++ dateToSecondsAccesses t2.y t2.m

/-- The two digits that `extract` takes for the month. -/
def monthField (ts : UInt64) : Nat := ts.toNat / 100000000000 % 100

/-- The loop adds up what it reads. -/
theorem addMonths_eq_foldl (y : Int) (totalDays : UInt64) (month m : Int) :
    addMonths y totalDays month m = (monthAccesses (isLeapYear y) month m).foldl
      (fun days a => days + (DAYS_PER_MONTH a.1).getD a.2.toNat 0) totalDays := by
  induction totalDays, month using addMonths.induct y m with
  | case1 totalDays month more ih =>
      rw [addMonths, if_pos more, monthAccesses, if_pos more, List.foldl_cons, ih]
  | case2 totalDays month done =>
      rw [addMonths, if_neg done, monthAccesses, if_neg done, List.foldl_nil]

/-- It reads the entries from the one of `month` up to, but not including, that of `m`. -/
theorem mem_monthAccesses {leap : Bool} {month m : Int} {a : Bool × Int} :
    a ∈ monthAccesses leap month m ↔ a.1 = leap ∧ month - 1 ≤ a.2 ∧ a.2 < m - 1 := by
  induction month using monthAccesses.induct m with
  | case1 month more ih =>
      rw [monthAccesses, if_pos more, List.mem_cons, ih, Prod.ext_iff, ← and_or_left]
      apply and_congr_right
      intro _
      omega
  | case2 month done =>
      rw [monthAccesses, if_neg done]
      simp only [List.not_mem_nil, false_iff]
      omega

theorem mem_dateToSecondsAccesses {y m : Int} {a : Bool × Int} :
    a ∈ dateToSecondsAccesses y m ↔ a.1 = isLeapYear y ∧ 0 ≤ a.2 ∧ a.2 < m - 1 :=
  mem_monthAccesses

/-- Both rows of the table have an entry for each of the first thirteen months' loops. -/
theorem dateToSecondsAccesses_inside {y : Int} {m : Nat} :
    (∀ a ∈ dateToSecondsAccesses y m, a.2 < 12) ↔ m ≤ 13 := by
  constructor
  · intro inside
    by_contra beyond
    have reads : (isLeapYear y, 12) ∈ dateToSecondsAccesses y m :=
      mem_dateToSecondsAccesses.mpr ⟨rfl, by omega, by omega⟩
    exact absurd (inside _ reads) (Int.lt_irrefl 12)
  · intro le a reads
    obtain ⟨-, -, below⟩ := mem_dateToSecondsAccesses.mp reads
    omega

theorem extract_m (ts : UInt64) : (extract ts).m = monthField ts := by
  change ((ts.toNat / 1000 / 100000000 % 100 : Nat) : Int) = monthField ts
  rw [monthField, Nat.div_div_eq_div_mul]

/-- An access is inside the table exactly if its row has that entry. -/
theorem inside_iff_length {a : Bool × Int} (first : 0 ≤ a.2) :
    a.2 < 12 ↔ a.2.toNat < (DAYS_PER_MONTH a.1).length := by
  have length : (DAYS_PER_MONTH a.1).length = 12 := by cases a.1 <;> rfl
  omega

end Common

namespace Shm.ShmMdPlus

variable {α : Type u} [TimedMarketData α]

/-- `get_md` of four arguments. -/
def getMdBetween (s : ShmMdPlus α) (instrument : Name) (startTp endTp : UInt64) : MdRet :=
  let offsetSec := calOffsetSec startTp endTp
  s.getMd instrument startTp endTp offsetSec

/-- A query between two times stays inside the table exactly if the month digits of both are
at most 13. -/
theorem getMdBetween_accesses_inside (startTp endTp : UInt64) :
    (∀ a ∈ calOffsetSecAccesses startTp endTp, a.2 < 12) ↔
      monthField startTp ≤ 13 ∧ monthField endTp ≤ 13 := by
  unfold calOffsetSecAccesses
  simp only [List.forall_mem_append, extract_m]
  exact and_congr dateToSecondsAccesses_inside dateToSecondsAccesses_inside

/-- From the first time to the largest one, the loop reads 27 entries past its row. -/
theorem not_accesses_inside :
    ¬ (∀ startTp endTp, ∀ a ∈ calOffsetSecAccesses startTp endTp, a.2 < 12) ∧
      (false, 38) ∈ calOffsetSecAccesses 0 18446744073709551615 := by
  have reads : (false, 38) ∈ calOffsetSecAccesses 0 18446744073709551615 := by
    decide +kernel
  refine ⟨?_, reads⟩
  intro inside
  exact absurd (inside _ _ _ reads) (by decide)

/-- Times that `get_cur_ms` wrote are safe, and their offset is the seconds between them. -/
theorem getMdBetween_getCurMs (s : ShmMdPlus α) (instrument : Name) {t u : DateTime}
    {millis millis' : Nat} (first : 1970 ≤ t.date.year) (last : t.date.year ≤ 9999)
    (first' : 1970 ≤ u.date.year) (last' : u.date.year ≤ 9999) (milli : millis < 1000)
    (milli' : millis' < 1000) (le : t.seconds * 1000 + millis ≤ u.seconds * 1000 + millis') :
    (∀ a ∈ calOffsetSecAccesses (getCurMs (tmOf t) millis) (getCurMs (tmOf u) millis'),
      a.2 < 12) ∧
    s.getMdBetween instrument (getCurMs (tmOf t) millis) (getCurMs (tmOf u) millis') =
      s.getMd instrument (getCurMs (tmOf t) millis) (getCurMs (tmOf u) millis')
        (UInt64.ofNat (u.seconds - t.seconds)) := by
  have months : ∀ {v : DateTime} {ms : Nat}, v.date.year ≤ 9999 → ms < 1000 →
      monthField (getCurMs (tmOf v) ms) ≤ 13 := by
    intro v ms year milli
    have field := extract_m (getCurMs (tmOf v) ms)
    rw [extract_getCurMs year milli] at field
    have month := v.date.month_le
    dsimp only at field
    omega
  constructor
  · apply (getMdBetween_accesses_inside _ _).mpr
    exact ⟨months last milli, months last' milli'⟩
  · have seconds := toNat_calOffsetSec first last first' last' milli milli' le
    have offset : calOffsetSec (getCurMs (tmOf t) millis) (getCurMs (tmOf u) millis') =
        UInt64.ofNat (u.seconds - t.seconds) := by
      apply UInt64.toNat.inj
      have bound := seconds_lt last'
      have word : u.seconds - t.seconds < 18446744073709551616 := by omega
      rw [UInt64.toNat_ofNat_of_lt' word]
      omega
    rw [getMdBetween, offset]

end Shm.ShmMdPlus
end RazorCrypto
