import RazorCrypto.Shm.Plus.Shortcut

/-!
# The times that range queries report

A range query reports the indices of its range in 64 bits, but the times at its ends in the
32-bit fields of `md_ret`. A time of 17 digits does not fit: every range that is found is
reported with times that are not those of its updates.
-/

universe u

namespace RazorCrypto.Shm

open MachineInt

variable {α : Type u} [TimedMarketData α]

/-- A time of 17 decimal digits: a date, a time of day and milliseconds. -/
def SeventeenDigits (time : UInt64) : Prop :=
  10000000000000000 ≤ time.toNat ∧ time.toNat < 100000000000000000

theorem SeventeenDigits.toUInt32_ne {time : UInt64} (digits : SeventeenDigits time) :
    time.toUInt32.toNat ≠ time.toNat := by
  have reported := time.toUInt32.toNat_lt
  obtain ⟨large, -⟩ := digits
  omega

/-- If the query found a range, it reports the times of the updates at its ends. -/
def ReportsTimes (r : MdHeadPlus α) (N : Nat) (result : MdRet) : Prop :=
  result.ret = true →
    result.startNTime.toNat =
        (TimedMarketData.nTimeMill (r.dat (result.startIndex % N))).toNat ∧
      result.endNTime.toNat = (TimedMarketData.nTimeMill (r.dat (result.endIndex % N))).toNat

/-- The end of a range, after `k` updates: an index of an update with the time in its slot. -/
def Located (r : MdHeadPlus α) (k N : Nat) (found : Nat × UInt64) : Prop :=
  found.1 < k ∧ found.2 = r.timeAtUnsigned N found.1

namespace MdHeadPlus

variable {r : MdHeadPlus α} {k N : Nat} {us : List α} {left : Int}

/-- An index below the count leads to a slot with an update, also if it is not retained. -/
theorem Keeps.dat_mem (h : Keeps N us r) (blocks : 1 ≤ N) {index : Nat}
    (inside : index < us.length) : r.dat (index % N) ∈ us := by
  -- the newest update of the slot is some laps after the one of the index
  have laps := Nat.div_add_mod (us.length - 1 - index) N
  have rest := Nat.mod_lt (us.length - 1 - index) blocks
  have newest : index + N * ((us.length - 1 - index) / N) < us.length := by omega
  have slot := h.slots (index + N * ((us.length - 1 - index) / N)) newest (by omega)
  rw [Nat.add_zero, Nat.add_mul_mod_self_left] at slot
  rw [slot]
  exact List.getElem_mem newest

/-- A retained index leads to the time of its update. -/
theorem Keeps.timeAtUnsigned (h : Keeps N us r) (blocks' : N < 2147483648) {j : Nat} {u : α}
    (retained : us.length - N ≤ j) (kept : us[j]? = some u) :
    r.timeAtUnsigned N j = TimedMarketData.nTimeMill u := by
  obtain ⟨inside, rfl⟩ := List.getElem?_eq_some_iff.mp kept
  rw [MdHeadPlus.timeAtUnsigned, asUInt64_natCast (by omega), ← h.slots j inside retained,
    Nat.add_zero]

theorem located_last (w : Counted k N) : Located r k N (k - 1, r.timeAtUnsigned N (k - 1)) := by
  have pos := w.pos
  exact ⟨by omega, rfl⟩

theorem located_first (w : Counted k N) : Located r k N (k - N, r.timeAtUnsigned N (k - N)) := by
  have pos := w.pos
  have blocks := w.blocks
  exact ⟨by omega, rfl⟩

theorem located_of_int (w : Counted k N) {index : Int} (nonneg : 0 ≤ index)
    (upTo : index ≤ ((k - 1 : Nat) : Int)) :
    Located r k N (asUInt64 index, r.timeAt N index) := by
  have pos := w.pos
  have size := w.size
  obtain ⟨j, rfl⟩ := Int.eq_ofNat_of_zero_le nonneg
  rw [asUInt64_natCast (by omega), timeAt_natCast w.blocks']
  exact ⟨by omega, rfl⟩

/-- A search from any index ends at an index of an update. -/
theorem searchLoop_upTo (r : MdHeadPlus α) (k N : Nat) (tp : UInt64) (nonneg : 0 ≤ left) :
    0 ≤ searchLoop (r.timeAt N) tp left ((k - 1 : Nat) : Int) ∧
      searchLoop (r.timeAt N) tp left ((k - 1 : Nat) : Int) ≤ ((k - 1 : Nat) : Int) :=
  ⟨searchLoop_nonneg nonneg (Int.natCast_nonneg _),
    (search_probes _ tp nonneg (Int.natCast_nonneg _)).le_right⟩

theorem rangeEnd_located (w : Counted k N) (nonneg : 0 ≤ left) (tp : UInt64) :
    Located r k N (r.rangeEnd N (k - 1) left tp) := by
  have size := w.size
  rw [rangeEnd, asInt64_of_mem (x := ((k - 1 : Nat) : Int)) (by omega) (by omega)]
  dsimp only
  split
  · exact located_last w
  · have bounds := searchLoop_upTo r k N tp nonneg
    apply located_of_int w
    · dsimp only [searchEnd]
      split <;> omega
    · dsimp only [searchEnd]
      split <;> omega

theorem rangeStart_located (w : Counted k N) (nonneg : 0 ≤ left) (tp : UInt64) :
    Located r k N (r.rangeStart N (k - N) (k - 1) left tp) := by
  have size := w.size
  rw [rangeStart, asInt64_of_mem (x := ((k - 1 : Nat) : Int)) (by omega) (by omega)]
  dsimp only
  split
  · exact located_first w
  · have bounds := searchLoop_upTo r k N tp nonneg
    apply located_of_int w
    · dsimp only [searchStart]
      split <;> omega
    · dsimp only [searchStart]
      split
      · next forward =>
          have less := forward.2
          rw [asUInt64_of_mem (by omega) (by omega)] at less
          omega
      · exact bounds.2

end MdHeadPlus

theorem startShort_nonneg (last : Nat) (offsetSec : UInt64) : 0 ≤ startShort last offsetSec := by
  dsimp only [startShort]
  split <;> omega

section Query

variable {r : MdHeadPlus α} {N : Nat} {us : List α} {result : MdRet} {oldest newest : α}

/-- A range that starts at an update of 17 digits is not reported with its time. -/
theorem not_reportsTimes (keeps : MdHeadPlus.Keeps N us r) (w : Counted us.length N)
    (digits : ∀ u ∈ us, SeventeenDigits (TimedMarketData.nTimeMill u)) {time : UInt64}
    (located : Located r us.length N (result.startIndex, time)) (ret : result.ret = true)
    (reported : result.startNTime = time.toUInt32) : ¬ReportsTimes r N result := by
  obtain ⟨inside, same⟩ := located
  have blocks' := w.blocks'
  have written := digits _ (keeps.dat_mem w.blocks inside)
  intro reports
  have start := (reports ret).1
  dsimp only at same
  rw [MdHeadPlus.timeAtUnsigned, asUInt64_natCast (by omega)] at same
  rw [reported, same] at start
  exact written.toUInt32_ne start

theorem reportsTimes_of_not_ret (none : result.ret = false) : ReportsTimes r N result := by
  intro answer
  simp [none] at answer

end Query

namespace ShmMdPlus

variable {s : ShmMdPlus α} {instrument : Name} {i N : Nat} {us : List α} {oldest newest : α}

/-- When the queries for an instrument report the times of the updates at the ends of a range,
kept in the record `r`: only when they find none. -/
structure ReportTimesIff (s : ShmMdPlus α) (instrument : Name) (r : MdHeadPlus α) (N : Nat)
    (oldest newest : UInt64) : Prop where
  all : ¬ReportsTimes r N (s.getMdAll instrument)
  byTp : ∀ endTp, ReportsTimes r N (s.getMdByTp instrument endTp) ↔ endTp < oldest
  range : ∀ startTp endTp offsetSec,
    ReportsTimes r N (s.getMd instrument startTp endTp offsetSec) ↔
      endTp < startTp ∨ newest < startTp ∨ endTp < oldest

theorem getMdAll_not_reportsTimes
    (found : s.mInstrumentsAddress.lookup (comHash instrument) = some i)
    (blockNum : s.mdBlockNum = N) (keeps : MdHeadPlus.Keeps N us (s.shm.record i))
    (w : Counted us.length N)
    (digits : ∀ u ∈ us, SeventeenDigits (TimedMarketData.nTimeMill u)) :
    ¬ReportsTimes (s.shm.record i) N (s.getMdAll instrument) := by
  rw [getMdAll, found]
  simp only [blockNum, MdHeadPlus.firstIndex_eq keeps.index w.blocks w.blocks' w.size]
  exact not_reportsTimes keeps w digits (MdHeadPlus.located_first w) rfl rfl

theorem getMdByTp_reportsTimes_iff
    (found : s.mInstrumentsAddress.lookup (comHash instrument) = some i)
    (blockNum : s.mdBlockNum = N) (keeps : MdHeadPlus.Keeps N us (s.shm.record i))
    (w : Counted us.length N)
    (digits : ∀ u ∈ us, SeventeenDigits (TimedMarketData.nTimeMill u)) (endTp : UInt64) :
    ReportsTimes (s.shm.record i) N (s.getMdByTp instrument endTp) ↔
      endTp < (s.shm.record i).timeAtUnsigned N (us.length - N) := by
  have size := w.size
  rw [getMdByTp, found]
  simp only [blockNum, MdHeadPlus.lastIndex_eq keeps.index w.pos size,
    MdHeadPlus.firstIndex_eq keeps.index w.blocks w.blocks' size]
  split
  · next after => exact iff_of_true (reportsTimes_of_not_ret rfl) after
  · next notAfter =>
      have nonneg : 0 ≤ asInt64 ((us.length - N : Nat) : Int) := by
        rw [asInt64_of_mem (by omega) (by omega)]
        omega
      have located := MdHeadPlus.rangeEnd_located (r := s.shm.record i) w nonneg endTp
      exact iff_of_false (not_reportsTimes keeps w digits located rfl rfl) notAfter

theorem getMd_reportsTimes_iff
    (found : s.mInstrumentsAddress.lookup (comHash instrument) = some i)
    (blockNum : s.mdBlockNum = N) (keeps : MdHeadPlus.Keeps N us (s.shm.record i))
    (w : Counted us.length N)
    (digits : ∀ u ∈ us, SeventeenDigits (TimedMarketData.nTimeMill u))
    (startTp endTp offsetSec : UInt64) :
    ReportsTimes (s.shm.record i) N (s.getMd instrument startTp endTp offsetSec) ↔
      endTp < startTp ∨ (s.shm.record i).timeAtUnsigned N (us.length - 1) < startTp ∨
        endTp < (s.shm.record i).timeAtUnsigned N (us.length - N) := by
  have size := w.size
  rw [getMd, found]
  simp only [blockNum, MdHeadPlus.lastIndex_eq keeps.index w.pos size,
    MdHeadPlus.firstIndex_eq keeps.index w.blocks w.blocks' size]
  split
  · next reversed => exact iff_of_true (reportsTimes_of_not_ret rfl) (.inl reversed)
  next inOrder =>
  split
  · next outside => exact iff_of_true (reportsTimes_of_not_ret rfl) (.inr outside)
  · next inside =>
      -- the search starts at the oldest index or at the shortcut, wherever that lies
      have nonneg : 0 ≤ if startTp ≤ (s.shm.record i).timeAt N
          (startShort (us.length - 1) offsetSec) then asInt64 ((us.length - N : Nat) : Int)
          else startShort (us.length - 1) offsetSec := by
        split
        · rw [asInt64_of_mem (by omega) (by omega)]
          omega
        · exact startShort_nonneg _ _
      have located := MdHeadPlus.rangeStart_located (r := s.shm.record i) w nonneg startTp
      refine iff_of_false (not_reportsTimes keeps w digits located rfl rfl) ?_
      exact not_or.2 ⟨inOrder, inside⟩

/-- After any run of calls, for an instrument whose updates have times of 17 digits: no range
that a query finds is reported with the times of the updates at its ends. -/
theorem queries_reportTimes_iff (page : Region α) {M N : Nat} {instruments : List Name}
    (capacity : M < 2147483648) (blocks : 1 ≤ N) (blocks' : N < 2147483648)
    (room : instruments.length ≤ M) (distinct : (instruments.map comHash).Nodup)
    (calls : List (Call α)) {instrument : Name} {i : Nat}
    (found : ((start page M N instruments).run calls).1.mInstrumentsAddress.lookup
      (comHash instrument) = some i) {us : List α}
    (accepted : history ((start page M N instruments).run calls).2 (comHash instrument) = us)
    (size : us.length ≤ 4611686018427387904)
    (digits : ∀ u ∈ us, SeventeenDigits (TimedMarketData.nTimeMill u))
    {oldest newest : α} (first : us[us.length - N]? = some oldest)
    (last : us.getLast? = some newest) :
    ReportTimesIff ((start page M N instruments).run calls).1 instrument
      (((start page M N instruments).run calls).1.shm.record i) N
      (TimedMarketData.nTimeMill oldest) (TimedMarketData.nTimeMill newest) := by
  obtain ⟨b, represented, -, updates⟩ :=
    run_represents (start_represents page capacity blocks' room distinct) calls
  have logged := updates (comHash instrument)
  rw [accepted] at logged
  generalize ((start page M N instruments).run calls).1 = s at represented found
  have keeps := represented.keeps_lookup found
  rw [logged] at keeps
  have pos : 1 ≤ us.length := List.length_pos_of_mem (List.mem_of_getLast? last)
  have w : Counted us.length N := ⟨blocks, blocks', pos, size⟩
  rw [List.getLast?_eq_getElem?] at last
  have oldestTime := keeps.timeAtUnsigned blocks' (Nat.le_refl _) first
  have newestTime := keeps.timeAtUnsigned blocks' (by omega) last
  refine ⟨getMdAll_not_reportsTimes found represented.blockNum keeps w digits, ?_, ?_⟩
  · intro endTp
    rw [← oldestTime]
    exact getMdByTp_reportsTimes_iff found represented.blockNum keeps w digits endTp
  · intro startTp endTp offsetSec
    rw [← oldestTime, ← newestTime]
    exact getMd_reportsTimes_iff found represented.blockNum keeps w digits _ _ _

/-- The store of one instrument after an update at noon of the first day of 2024. -/
abbrev noon : ShmMdPlus UInt64 × List (UInt64 × UInt64) :=
  (start Region.zeroed 1 3 [[65]]).run [⟨[65], 20240101120000000, none⟩]

theorem queries_reportTimes_noon :
    ReportTimesIff noon.1 [65] (noon.1.shm.record 0) 3 20240101120000000 20240101120000000 := by
  have accepted : history noon.2 (comHash [65]) = [20240101120000000] := by decide +kernel
  have digits : ∀ u ∈ [(20240101120000000 : UInt64)],
      SeventeenDigits (TimedMarketData.nTimeMill u) := by
    intro u member
    obtain rfl := List.mem_singleton.mp member
    exact ⟨by decide, by decide⟩
  exact queries_reportTimes_iff Region.zeroed (by decide) (by decide) (by decide) (by decide)
    (by decide) [⟨[65], 20240101120000000, none⟩] (by decide +kernel) accepted (by decide)
    digits rfl rfl

/-- `get_md_all` finds this update and reports the time 3313090560. -/
theorem noon_reported :
    (noon.1.getMdAll [65]).ret = true ∧ (noon.1.getMdAll [65]).endIndex = 0 ∧
      (noon.1.shm.record 0).dat 0 = 20240101120000000 ∧
      (noon.1.getMdAll [65]).endNTime.toNat = 3313090560 ∧
      ¬ReportsTimes (noon.1.shm.record 0) 3 (noon.1.getMdAll [65]) := by
  have found : (noon.1.getMdAll [65]).ret = true := by decide +kernel
  have reported : (noon.1.getMdAll [65]).endNTime.toNat = 3313090560 := by decide +kernel
  refine ⟨found, by decide +kernel, by decide +kernel, reported, fun reports => ?_⟩
  have ends := (reports found).2
  rw [reported] at ends
  exact absurd ends (by decide +kernel)

end ShmMdPlus

end RazorCrypto.Shm
