import RazorCrypto.Shm.Plus.Bisect
import RazorCrypto.Shm.Plus.Invariant

/-!
# Range queries and the retained window

With `k` updates in a record of `N` slots, the indices from `k - N` to `k - 1` are
retained. For a record with an update, `get_md_all` and `get_md_by_tp` stay in this
window, and so does `get_md` as long as its searches do not start below it, which the
shortcut by `offset_sec` can make them do. For a record without updates the newest index
wraps to the largest unsigned value, and no query checks for that.
-/

universe u

namespace RazorCrypto.Shm

open MachineInt

/-! ## The search -/

/-- The search stays between an index whose time is not after `tp` and its right end. -/
theorem searchLoop_mem {time : Int → UInt64} {tp : UInt64} {low left right : Int}
    (before : ¬ tp < time low) (pos : 0 ≤ low) (inLeft : low ≤ left) (inRight : low ≤ right) :
    low ≤ searchLoop time tp left right ∧ searchLoop time tp left right ≤ right := by
  have search := search_probes time tp (Int.le_trans pos inLeft) (Int.le_trans pos inRight)
  refine ⟨search.low_le (mt position_gt.1 before) inRight fun p probe front => ?_, search.le_right⟩
  have between := search.probe_mem probe
  omega

variable {α : Type u} [TimedMarketData α]

namespace MdHeadPlus

variable {r : MdHeadPlus α} {tp : UInt64} {blockNum low left right : Int}

/-- Stepping back from an update after `tp` does not leave the window. -/
theorem searchEnd_mem (before : ¬ tp < r.timeAt blockNum low) (pos : 0 ≤ low)
    (inLeft : low ≤ left) (inRight : low ≤ right) :
    low ≤ r.searchEnd blockNum tp left right ∧ r.searchEnd blockNum tp left right ≤ right := by
  obtain ⟨above, below⟩ := searchLoop_mem before pos inLeft inRight
  dsimp only [searchEnd]
  generalize searchLoop (r.timeAt blockNum) tp left right = found at above below
  split
  · next back =>
      have ne : low ≠ found := by
        rintro rfl
        exact before back.1
      omega
  · omega

/-- Stepping forward to the first update of the range neither. -/
theorem searchStart_mem {last : Nat} (before : ¬ tp < r.timeAt blockNum low) (pos : 0 ≤ low)
    (inLeft : low ≤ left) (inRight : low ≤ right) (end_eq : right = last)
    (size : right < 9223372036854775808) :
    low ≤ r.searchStart blockNum tp left right last ∧
      r.searchStart blockNum tp left right last ≤ right := by
  obtain ⟨above, below⟩ := searchLoop_mem before pos inLeft inRight
  dsimp only [searchStart]
  generalize searchLoop (r.timeAt blockNum) tp left right = found at above below
  split
  · next forward =>
      have less := forward.2
      rw [asUInt64_of_mem (by omega) (by omega)] at less
      omega
  · omega

variable {N k : Nat} {us : List α}

omit [TimedMarketData α] in
theorem lastIndex_eq (index : r.currentIndex = k) (pos : 1 ≤ k)
    (size : k ≤ 4611686018427387904) : r.lastIndex = k - 1 := by
  rw [lastIndex, index, asUInt64_of_mem (by omega) (by omega)]
  omega

omit [TimedMarketData α] in
/-- The newest index of a record without updates. -/
theorem lastIndex_zero (index : r.currentIndex = (0 : Nat)) :
    r.lastIndex = 18446744073709551615 := by
  rw [lastIndex, index]
  exact asUInt64_neg_one

omit [TimedMarketData α] in
theorem firstIndex_eq (index : r.currentIndex = k) (blocks : 1 ≤ N) (blocks' : N < 2147483648)
    (size : k ≤ 4611686018427387904) : r.firstIndex N = k - N := by
  have count : asUInt64 (r.lastIndex + 1) = k := by
    rcases Nat.eq_zero_or_pos k with none | pos
    · subst none
      rw [lastIndex_zero index]
      decide +kernel
    · rw [lastIndex_eq index pos size, asUInt64_of_mem (by omega) (by omega)]
      omega
  dsimp only [firstIndex]
  rw [count, asUInt64_natCast (by omega)]
  split <;> omega

/-- Signed and unsigned indices lead to the same slots. -/
theorem timeAt_natCast (blocks' : N < 2147483648) (index : Nat) :
    r.timeAt N index = r.timeAtUnsigned N index := by
  rw [timeAt, timeAtUnsigned, asUInt64_natCast (by omega), ← Int.ofNat_tmod, Int.toNat_natCast]

/-- The slots of a record without updates hold zeroed data. -/
theorem Keeps.timeAtUnsigned_zero (h : Keeps N [] r) (blocks : 1 ≤ N)
    (blocks' : N < 2147483648) (index : Nat) : r.timeAtUnsigned N index = 0 := by
  rw [timeAtUnsigned, asUInt64_natCast (by omega),
    h.fresh _ (Nat.zero_le _) (Nat.mod_lt _ (by omega)), TimedMarketData.nTimeMill_zero]

end MdHeadPlus

/-! ## The queries -/

/-- An index of an update that is still in its slot, after `k` updates of `N` slots. -/
def Retained (k N index : Nat) : Prop := k - N ≤ index ∧ index < k

/-- If the query found a range, both its ends are retained. -/
def InWindow (k N : Nat) (result : MdRet) : Prop :=
  result.ret = true → Retained k N result.startIndex ∧ Retained k N result.endIndex

/-- No search of `get_md` starts below the retained window: it is not needed, or it starts
at the oldest index because the time of the shortcut is not before the one that is looked
for, or the shortcut itself is retained. -/
structure SearchesRetained (r : MdHeadPlus α) (blockNum : Int)
    (startTp endTp offsetSec : UInt64) : Prop where
  fromEnd : r.timeAtUnsigned blockNum r.lastIndex ≤ endTp ∨
    endTp ≤ r.timeAt blockNum (startShort r.lastIndex offsetSec) ∨
    r.firstIndex blockNum ≤ startShort r.lastIndex offsetSec
  fromStart : startTp ≤ r.timeAtUnsigned blockNum (r.firstIndex blockNum) ∨
    startTp ≤ r.timeAt blockNum (startShort r.lastIndex offsetSec) ∨
    r.firstIndex blockNum ≤ startShort r.lastIndex offsetSec

/-- `get_md` returns before it searches, or no search starts below the retained window. -/
def StaysInWindow (r : MdHeadPlus α) (blockNum : Int) (startTp endTp offsetSec : UInt64) : Prop :=
  endTp < startTp ∨ r.timeAtUnsigned blockNum r.lastIndex < startTp ∨
    endTp < r.timeAtUnsigned blockNum (r.firstIndex blockNum) ∨
    SearchesRetained r blockNum startTp endTp offsetSec

theorem retained_last {k N : Nat} (blocks : 1 ≤ N) (pos : 1 ≤ k) : Retained k N (k - 1) :=
  ⟨by omega, by omega⟩

theorem retained_first {k N : Nat} (blocks : 1 ≤ N) (pos : 1 ≤ k) : Retained k N (k - N) :=
  ⟨Nat.le_refl _, by omega⟩

theorem retained_of_int {k N : Nat} {index : Int} (size : k ≤ 4611686018427387904)
    (low : ((k - N : Nat) : Int) ≤ index) (high : index ≤ ((k - 1 : Nat) : Int)) (pos : 1 ≤ k) :
    Retained k N (asUInt64 index) := by
  rw [asUInt64_of_mem (by omega) (by omega)]
  exact ⟨by omega, by omega⟩

namespace MdHeadPlus

variable {r : MdHeadPlus α} {k N : Nat} {left : Int} {tp : UInt64}

theorem rangeEnd_retained (blocks : 1 ≤ N) (blocks' : N < 2147483648) (pos : 1 ≤ k)
    (size : k ≤ 4611686018427387904) (before : ¬ tp < r.timeAtUnsigned N (k - N))
    (inLeft : r.timeAtUnsigned N (k - 1) ≤ tp ∨ ((k - N : Nat) : Int) ≤ left) :
    Retained k N (r.rangeEnd N (k - 1) left tp).1 := by
  dsimp only [rangeEnd]
  split
  · exact retained_last blocks pos
  · next earlier =>
      rw [← timeAt_natCast blocks'] at before
      rw [asInt64_of_mem (by omega) (by omega)]
      have bounds : ((k - N : Nat) : Int) ≤ r.searchEnd N tp left ((k - 1 : Nat) : Int) ∧
          r.searchEnd N tp left ((k - 1 : Nat) : Int) ≤ ((k - 1 : Nat) : Int) :=
        searchEnd_mem before (by omega) (inLeft.resolve_left earlier) (by omega)
      exact retained_of_int size bounds.1 bounds.2 pos

theorem rangeStart_retained (blocks : 1 ≤ N) (blocks' : N < 2147483648) (pos : 1 ≤ k)
    (size : k ≤ 4611686018427387904)
    (inLeft : tp ≤ r.timeAtUnsigned N (k - N) ∨ ((k - N : Nat) : Int) ≤ left) :
    Retained k N (r.rangeStart N (k - N) (k - 1) left tp).1 := by
  dsimp only [rangeStart]
  split
  · exact retained_first blocks pos
  · next later =>
      have before : ¬ tp < r.timeAt N ((k - N : Nat) : Int) := by
        rw [timeAt_natCast blocks']
        exact fun lt => later (UInt64.le_of_lt lt)
      rw [asInt64_of_mem (by omega) (by omega)]
      have bounds : ((k - N : Nat) : Int) ≤
            r.searchStart N tp left ((k - 1 : Nat) : Int) (k - 1) ∧
          r.searchStart N tp left ((k - 1 : Nat) : Int) (k - 1) ≤ ((k - 1 : Nat) : Int) :=
        searchStart_mem before (by omega) (inLeft.resolve_left later) (by omega) rfl (by omega)
      exact retained_of_int size bounds.1 bounds.2 pos

end MdHeadPlus

namespace ShmMdPlus

variable {s : ShmMdPlus α} {instrument : Name} {i N : Nat} {us : List α}

/-- Without updates the only retained range is that of a query that fails. -/
theorem inWindow_zero_iff {N : Nat} {result : MdRet} :
    InWindow 0 N result ↔ result.ret = false := by
  cases answer : result.ret with
  | false => simp [InWindow, answer]
  | true => simp [InWindow, Retained, answer]

/-- `get_md_all` reports a retained range exactly if there is an update. -/
theorem getMdAll_inWindow_iff
    (found : s.mInstrumentsAddress.lookup (comHash instrument) = some i)
    (blockNum : s.mdBlockNum = N) (blocks : 1 ≤ N) (blocks' : N < 2147483648)
    (keeps : MdHeadPlus.Keeps N us (s.shm.record i)) (size : us.length ≤ 4611686018427387904) :
    InWindow us.length N (s.getMdAll instrument) ↔ 1 ≤ us.length := by
  constructor
  · intro window
    by_contra none
    rw [Nat.eq_zero_of_not_pos none, inWindow_zero_iff, getMdAll, found] at window
    cases window
  · intro pos _
    rw [getMdAll, found]
    dsimp only
    rw [blockNum, MdHeadPlus.lastIndex_eq keeps.index pos size,
      MdHeadPlus.firstIndex_eq keeps.index blocks blocks' size]
    exact ⟨retained_first blocks pos, retained_last blocks pos⟩

/-- So does `get_md_by_tp`, whatever the time. -/
theorem getMdByTp_inWindow_iff
    (found : s.mInstrumentsAddress.lookup (comHash instrument) = some i)
    (blockNum : s.mdBlockNum = N) (blocks : 1 ≤ N) (blocks' : N < 2147483648)
    (keeps : MdHeadPlus.Keeps N us (s.shm.record i)) (size : us.length ≤ 4611686018427387904)
    (endTp : UInt64) :
    InWindow us.length N (s.getMdByTp instrument endTp) ↔ 1 ≤ us.length := by
  constructor
  · intro window
    by_contra none
    have empty := List.eq_nil_of_length_eq_zero (Nat.eq_zero_of_not_pos none)
    subst empty
    rw [List.length_nil, inWindow_zero_iff, getMdByTp, found] at window
    simp [blockNum, keeps.timeAtUnsigned_zero blocks blocks'] at window
  · intro pos
    have last := MdHeadPlus.lastIndex_eq keeps.index pos size
    have first := MdHeadPlus.firstIndex_eq keeps.index blocks blocks' size
    rw [getMdByTp, found]
    simp only [blockNum, last, first]
    split
    · intro answer
      cases answer
    · next before =>
        intro _
        have oldest := Or.inr (a := (s.shm.record i).timeAtUnsigned N (us.length - 1) ≤ endTp)
          (Int.le_of_eq (asInt64_of_mem (x := ((us.length - N : Nat) : Int))
            (by omega) (by omega)).symm)
        have retained := MdHeadPlus.rangeEnd_retained blocks blocks' pos size before oldest
        exact ⟨retained, retained⟩

/-- On a record without updates `get_md` fails only if `startTp` is positive. -/
theorem getMd_inWindow_zero_iff
    (found : s.mInstrumentsAddress.lookup (comHash instrument) = some i)
    (blockNum : s.mdBlockNum = N) (blocks : 1 ≤ N) (blocks' : N < 2147483648)
    (keeps : MdHeadPlus.Keeps N [] (s.shm.record i)) (startTp endTp offsetSec : UInt64) :
    InWindow 0 N (s.getMd instrument startTp endTp offsetSec) ↔ 0 < startTp := by
  rw [inWindow_zero_iff, getMd, found]
  simp only [blockNum, keeps.timeAtUnsigned_zero blocks blocks']
  split
  · next reversed =>
      simp only [true_iff]
      exact UInt64.lt_of_le_of_lt UInt64.zero_le reversed
  · split
    · next outside =>
        have positive : 0 < startTp := outside.resolve_right UInt64.not_lt_zero
        simp [positive]
    · next inside =>
        have zero : ¬ 0 < startTp := fun positive => inside (Or.inl positive)
        simp [zero]

/-- `get_md` reports a retained range if there is an update and it returns early or its searches
stay in the window. -/
theorem getMd_inWindow
    (found : s.mInstrumentsAddress.lookup (comHash instrument) = some i)
    (blockNum : s.mdBlockNum = N) (blocks : 1 ≤ N) (blocks' : N < 2147483648)
    (keeps : MdHeadPlus.Keeps N us (s.shm.record i)) (size : us.length ≤ 4611686018427387904)
    (pos : 1 ≤ us.length) {startTp endTp offsetSec : UInt64}
    (stays : StaysInWindow (s.shm.record i) N startTp endTp offsetSec) :
    InWindow us.length N (s.getMd instrument startTp endTp offsetSec) := by
  have last := MdHeadPlus.lastIndex_eq keeps.index pos size
  have first := MdHeadPlus.firstIndex_eq keeps.index blocks blocks' size
  rw [getMd, found]
  simp only [blockNum, last, first]
  split
  · intro answer
    cases answer
  next ordered =>
  split
  · intro answer
    cases answer
  · next inRange =>
      intro _
      obtain reversed | before | after | ⟨fromEnd, fromStart⟩ := stays
      · exact absurd reversed ordered
      · exact absurd (.inl (last ▸ before)) inRange
      · exact absurd (.inr (first ▸ after)) inRange
      rw [last, first] at fromEnd fromStart
      -- both searches start at the oldest index or at a shortcut after it
      have oldest : ∀ {tp time : UInt64} {short : Int},
          (tp ≤ time ∨ ((us.length - N : Nat) : Int) ≤ short) →
          ((us.length - N : Nat) : Int) ≤
            if tp ≤ time then asInt64 ((us.length - N : Nat) : Int) else short := by
        intro tp time short retained
        split
        · rw [asInt64_of_mem (by omega) (by omega)]
        · next shortcut => exact retained.resolve_left shortcut
      exact ⟨MdHeadPlus.rangeStart_retained blocks blocks' pos size (fromStart.imp_right oldest),
        MdHeadPlus.rangeEnd_retained blocks blocks' pos size (fun lt => inRange (Or.inr lt))
          (fromEnd.imp_right oldest)⟩

/-- When the queries for an instrument with `k` updates, kept in the record `r`, report
only retained ranges. -/
structure QueriesInWindow (s : ShmMdPlus α) (instrument : Name) (r : MdHeadPlus α) (k N : Nat) :
    Prop where
  all : InWindow k N (s.getMdAll instrument) ↔ 1 ≤ k
  byTp : ∀ endTp, InWindow k N (s.getMdByTp instrument endTp) ↔ 1 ≤ k
  empty : k = 0 → ∀ startTp endTp offsetSec,
    InWindow k N (s.getMd instrument startTp endTp offsetSec) ↔ 0 < startTp
  range : 1 ≤ k → ∀ startTp endTp offsetSec, StaysInWindow r N startTp endTp offsetSec →
    InWindow k N (s.getMd instrument startTp endTp offsetSec)

/-- The range queries in every state that a run of calls reaches from a fresh store. -/
theorem queries_inWindow (page : Region α) {M N : Nat} {instruments : List Name}
    (capacity : M < 2147483648) (blocks : 1 ≤ N) (blocks' : N < 2147483648)
    (room : instruments.length ≤ M) (distinct : (instruments.map comHash).Nodup)
    (calls : List (Call α)) {instrument : Name} {i k : Nat}
    (found : ((start page M N instruments).run calls).1.mInstrumentsAddress.lookup
      (comHash instrument) = some i)
    (index : (((start page M N instruments).run calls).1.shm.record i).currentIndex = k)
    (size : k ≤ 4611686018427387904) :
    QueriesInWindow ((start page M N instruments).run calls).1 instrument
      (((start page M N instruments).run calls).1.shm.record i) k N := by
  obtain ⟨b, represented, -, -⟩ :=
    run_represents (start_represents page capacity blocks' room distinct) calls
  generalize ((start page M N instruments).run calls).1 = s at represented found index
  have keeps := represented.keeps_lookup found
  generalize b.updates (comHash instrument) = us at keeps
  have len : us.length = k := by
    have same := keeps.index.symm.trans index
    omega
  subst len
  refine ⟨getMdAll_inWindow_iff found represented.blockNum blocks blocks' keeps size,
    getMdByTp_inWindow_iff found represented.blockNum blocks blocks' keeps size, ?_, ?_⟩
  · intro none startTp endTp offsetSec
    have empty := List.eq_nil_of_length_eq_zero none
    subst empty
    exact getMd_inWindow_zero_iff found represented.blockNum blocks blocks' keeps _ _ _
  · intro pos startTp endTp offsetSec stays
    exact getMd_inWindow found represented.blockNum blocks blocks' keeps size pos stays

/-- Ten updates of one instrument, with the times 1 to 10. -/
def tenUpdates : List (Call UInt64) :=
  (List.range 10).map fun i => ⟨[65], UInt64.ofNat (i + 1), none⟩

theorem queries_inWindow_ten :
    QueriesInWindow ((start (Region.zeroed : Region UInt64) 1 3 [[65]]).run tenUpdates).1 [65]
      (((start Region.zeroed 1 3 [[65]]).run tenUpdates).1.shm.record 0) 10 3 :=
  queries_inWindow Region.zeroed (by decide) (by decide) (by decide) (by decide) (by decide)
    tenUpdates (by decide +kernel) (by decide +kernel) (by decide)

/-- Two queries that leave the window: all updates of an instrument that has none, and a
range whose end is searched from the shortcut below the three retained updates. -/
theorem queries_leave_window :
    ((start (Region.zeroed : Region UInt64) 1 3 [[65]]).getMdAll [65]).ret = true ∧
    ((start (Region.zeroed : Region UInt64) 1 3 [[65]]).getMdAll [65]).endIndex =
      18446744073709551615 ∧
    ¬ InWindow 0 3 ((start (Region.zeroed : Region UInt64) 1 3 [[65]]).getMdAll [65]) ∧
    (((start (Region.zeroed : Region UInt64) 1 3 [[65]]).run tenUpdates).1.getMd
      [65] 8 9 0).endIndex = 5 ∧
    ¬ InWindow 10 3 (((start (Region.zeroed : Region UInt64) 1 3 [[65]]).run
      tenUpdates).1.getMd [65] 8 9 0) := by
  have answer : ((start (Region.zeroed : Region UInt64) 1 3 [[65]]).getMdAll [65]).ret = true := by
    decide +kernel
  have answer' : (((start (Region.zeroed : Region UInt64) 1 3 [[65]]).run tenUpdates).1.getMd
      [65] 8 9 0).ret = true := by decide +kernel
  have below : (((start (Region.zeroed : Region UInt64) 1 3 [[65]]).run tenUpdates).1.getMd
      [65] 8 9 0).endIndex = 5 := by decide +kernel
  refine ⟨answer, by decide +kernel, ?_, below, ?_⟩
  · intro window
    exact absurd (window answer).1.2 (Nat.not_lt_zero _)
  · intro window
    have retained := (window answer').2.1
    rw [below] at retained
    exact absurd retained (by decide)

end ShmMdPlus
end RazorCrypto.Shm
