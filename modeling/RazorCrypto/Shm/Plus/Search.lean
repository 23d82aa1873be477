import RazorCrypto.Shm.Plus.Window

/-!
# What the searches by time find

The loop of the range queries is a bisection of the retained window, whose times are in order. So
`get_md_by_tp` finds the tick in force at a time: with several ticks of that time it may stop at any
of them, which does not matter here.
-/

universe u

namespace RazorCrypto.Shm

open MachineInt Bisection

variable {α : Type u} [TimedMarketData α]

/-! ## The records -/

/-- A record with `k` updates, at least one, in `N` slots. The sum of two indices does not
overflow. -/
structure Counted (k N : Nat) : Prop where
  blocks : 1 ≤ N
  blocks' : N < 2147483648
  pos : 1 ≤ k
  size : k ≤ 4611686018427387904

/-- A retained index is the same number without a sign. -/
theorem Counted.asUInt64_retained {k N j : Nat} (w : Counted k N) (retained : Retained k N j) :
    asUInt64 (j : Int) = j := by
  obtain ⟨-, bound⟩ := retained
  have size := w.size
  exact asUInt64_natCast (by omega)

namespace MdHeadPlus

/-- The retained updates come in the order of their times. -/
def InOrder (r : MdHeadPlus α) (k N : Nat) : Prop :=
  ∀ i j, Retained k N i → Retained k N j → i ≤ j → r.timeAtUnsigned N i ≤ r.timeAtUnsigned N j

/-- The last retained update that is not after a time. -/
structure LastUpTo (r : MdHeadPlus α) (k N : Nat) (tp : UInt64) (e : Nat) : Prop where
  retained : Retained k N e
  notAfter : r.timeAtUnsigned N e ≤ tp
  rest : ∀ j, Retained k N j → e < j → tp < r.timeAtUnsigned N j

/-- The first retained update that is not before a time. -/
structure FirstFrom (r : MdHeadPlus α) (k N : Nat) (tp : UInt64) (s : Nat) : Prop where
  retained : Retained k N s
  notBefore : tp ≤ r.timeAtUnsigned N s
  rest : ∀ j, Retained k N j → j < s → r.timeAtUnsigned N j < tp

/-- The update in force at a time: the last one that is not after it, or another one of the same
time. -/
structure InForce (r : MdHeadPlus α) (k N : Nat) (tp : UInt64) (index : Nat) : Prop where
  retained : Retained k N index
  notAfter : r.timeAtUnsigned N index ≤ tp
  latest : ∀ j, Retained k N j → r.timeAtUnsigned N j ≤ tp →
    r.timeAtUnsigned N j ≤ r.timeAtUnsigned N index

/-- The indices that a search of the window looks at. -/
def windowProbes (r : MdHeadPlus α) (k N : Nat) (left : Int) (tp : UInt64) : List Int :=
  probes (r.timeAt N) tp left ((k - 1 : Nat) : Int)

/-- The search stops at no update whose successor has the same time. -/
def StopsAtLast (r : MdHeadPlus α) (k N : Nat) (left : Int) (tp : UInt64) : Prop :=
  ∀ p ∈ r.windowProbes k N left tp, r.timeAt N p = tp → r.timeAt N (p + 1) ≠ tp

/-- The search stops at no update whose predecessor has the same time. -/
def StopsAtFirst (r : MdHeadPlus α) (k N : Nat) (left : Int) (tp : UInt64) : Prop :=
  ∀ p ∈ r.windowProbes k N left tp, r.timeAt N p = tp → r.timeAt N (p - 1) ≠ tp

/-- Where the search looks at an index in front of the retained ones, it finds an earlier time. -/
def Passes (r : MdHeadPlus α) (k N : Nat) (left : Int) (tp : UInt64) : Prop :=
  ∀ p ∈ r.windowProbes k N left tp, p < ((k - N : Nat) : Int) → r.timeAt N p < tp

/-- What a search of the window relies on. -/
abbrev SearchCovers (r : MdHeadPlus α) (k N : Nat) (left : Int) (tp : UInt64) : Prop :=
  Covers (position (r.timeAt N) tp) ((k - N : Nat) : Int) ((k - 1 : Nat) : Int) left
    (r.windowProbes k N left tp)

variable {r : MdHeadPlus α} {k N : Nat} {tp : UInt64} {left : Int}

/-- A retained index as the loop sees it. -/
theorem exists_retained (pos : 1 ≤ k) {i : Int} (low : ((k - N : Nat) : Int) ≤ i)
    (high : i ≤ ((k - 1 : Nat) : Int)) : ∃ j, Retained k N j ∧ i = (j : Nat) :=
  ⟨i.toNat, ⟨by omega, by omega⟩, by omega⟩

theorem InOrder.timeAt_le (ordered : r.InOrder k N) (w : Counted k N) {i j : Int}
    (low : ((k - N : Nat) : Int) ≤ i) (le : i ≤ j) (high : j ≤ ((k - 1 : Nat) : Int)) :
    r.timeAt N i ≤ r.timeAt N j := by
  obtain ⟨i, retained, rfl⟩ := exists_retained w.pos low (Int.le_trans le high)
  obtain ⟨j, retained', rfl⟩ := exists_retained w.pos (Int.le_trans low le) high
  rw [timeAt_natCast w.blocks', timeAt_natCast w.blocks']
  exact ordered i j retained retained' (Int.ofNat_le.1 le)

/-- A search of the retained window that starts in it or passes what lies in front of it. -/
theorem InOrder.covers (ordered : r.InOrder k N) (w : Counted k N)
    (passes : r.Passes k N left tp)
    (before : ∀ i, ((k - N : Nat) : Int) ≤ i → i < left → i ≤ ((k - 1 : Nat) : Int) →
      r.timeAt N i < tp) : r.SearchCovers k N left tp where
  nonempty := by
    have blocks := w.blocks
    omega
  sorted := sorted_position (fun _ _ low le high => ordered.timeAt_le w low le high) tp
  passes p probe front := position_lt.2 (passes p probe front)
  before i low front high := position_lt.2 (before i low front high)

theorem search_windowProbes (k : Nat) (pos : 0 ≤ left) (tp : UInt64) :
    Search (position (r.timeAt N) tp) left ((k - 1 : Nat) : Int) (r.windowProbes k N left tp)
      (searchLoop (r.timeAt N) tp left ((k - 1 : Nat) : Int)) :=
  search_probes (r.timeAt N) tp pos (by omega)

/-- A search that starts at a retained index looks at no other ones. -/
theorem passes_of_low (low : ((k - N : Nat) : Int) ≤ left) (tp : UInt64) :
    r.Passes k N left tp := by
  intro p probe front
  have between := (search_windowProbes k (by omega) tp).probe_mem probe
  omega

/-- A search of the window that starts at its oldest update. -/
theorem InOrder.covers_oldest (ordered : r.InOrder k N) (w : Counted k N) (tp : UInt64) :
    r.SearchCovers k N ((k - N : Nat) : Int) tp :=
  ordered.covers w (passes_of_low (Int.le_refl _) tp) fun i low front => absurd front (by omega)

/-- Where a search stops at the time that it looks for, its last step does nothing. -/
theorem searchEnd_of_probe (pos : 0 ≤ left) {p : Int} (probe : p ∈ r.windowProbes k N left tp)
    (eq : r.timeAt N p = tp) : r.searchEnd N tp left ((k - 1 : Nat) : Int) = p := by
  have result := (search_windowProbes k pos tp).eq_of_hit probe (position_eq.2 eq)
  rw [searchEnd, result]
  exact if_neg fun both => absurd (eq ▸ both.1) (UInt64.lt_irrefl _)

theorem searchStart_of_probe (pos : 0 ≤ left) {p : Int} (probe : p ∈ r.windowProbes k N left tp)
    (eq : r.timeAt N p = tp) (last : Nat) :
    r.searchStart N tp left ((k - 1 : Nat) : Int) last = p := by
  have result := (search_windowProbes k pos tp).eq_of_hit probe (position_eq.2 eq)
  rw [searchStart, result]
  exact if_neg fun both => absurd (eq ▸ both.1) (UInt64.lt_irrefl _)

/-- The step back of `searchEnd`, from an index at or behind one whose time is not after. -/
theorem searchEnd_eq {low right : Int} (pos : 0 ≤ low) (start : ¬tp < r.timeAt N low)
    (inside : low ≤ searchLoop (r.timeAt N) tp left right) :
    r.searchEnd N tp left right =
      stepBack (position (r.timeAt N) tp) (searchLoop (r.timeAt N) tp left right) := by
  dsimp only [searchEnd, stepBack]
  generalize searchLoop (r.timeAt N) tp left right = found at inside ⊢
  by_cases after : tp < r.timeAt N found
  · have ne : low ≠ found := by
      rintro rfl
      exact start after
    rw [if_pos ⟨after, by omega⟩, if_pos (position_gt.2 after)]
  · rw [if_neg fun both => after both.1, if_neg fun gt => after (position_gt.1 gt)]

/-- The step forward of `searchStart`, from an index of the window. -/
theorem searchStart_eq {low : Int} {last : Nat} (pos : 0 ≤ low) (size : last < 9223372036854775808)
    (finish : ¬r.timeAt N last < tp) (inside : low ≤ searchLoop (r.timeAt N) tp left last)
    (bound : searchLoop (r.timeAt N) tp left last ≤ last) :
    r.searchStart N tp left last last =
      stepForward (position (r.timeAt N) tp) (searchLoop (r.timeAt N) tp left last) := by
  dsimp only [searchStart, stepForward]
  generalize searchLoop (r.timeAt N) tp left last = found at inside bound ⊢
  by_cases before : r.timeAt N found < tp
  · have ne : found ≠ (last : Int) := by
      rintro rfl
      exact finish before
    have less : asUInt64 found < last := by
      rw [asUInt64_of_mem (by omega) (by omega)]
      omega
    rw [if_pos ⟨before, less⟩, if_pos (position_lt.2 before)]
  · rw [if_neg fun both => before both.1, if_neg fun lt => before (position_lt.1 lt)]

theorem LastUpTo.of_isLast (w : Counted k N) {e : Int}
    (isLast : IsLast (position (r.timeAt N) tp) ((k - N : Nat) : Int) ((k - 1 : Nat) : Int) e) :
    r.LastUpTo k N tp (asUInt64 e) := by
  obtain ⟨e, retained, rfl⟩ := exists_retained w.pos isLast.inside isLast.bound
  rw [w.asUInt64_retained retained]
  refine ⟨retained, ?_, fun j other more => ?_⟩
  · rw [← timeAt_natCast w.blocks']
    exact position_ne_gt.1 isLast.notAfter
  · rw [← timeAt_natCast w.blocks']
    exact position_gt.1 (isLast.rest j (by omega) (by have bound := other.2; omega))

theorem FirstFrom.of_isFirst (w : Counted k N) {s : Int}
    (isFirst : IsFirst (position (r.timeAt N) tp) ((k - N : Nat) : Int) ((k - 1 : Nat) : Int) s) :
    r.FirstFrom k N tp (asUInt64 s) := by
  obtain ⟨s, retained, rfl⟩ := exists_retained w.pos isFirst.inside isFirst.bound
  rw [w.asUInt64_retained retained]
  refine ⟨retained, ?_, fun j other less => ?_⟩
  · rw [← timeAt_natCast w.blocks']
    exact position_ne_lt.1 isFirst.notBefore
  · rw [← timeAt_natCast w.blocks']
    exact position_lt.1 (isFirst.rest j (by have low := other.1; omega) (by omega))

/-- The search for the end, if it does not stop too early. -/
theorem searchEnd_lastUpTo (ordered : r.InOrder k N) (w : Counted k N)
    (covers : r.SearchCovers k N left tp) (pos : 0 ≤ left)
    (start : ¬tp < r.timeAt N ((k - N : Nat) : Int)) (stops : r.StopsAtLast k N left tp) :
    r.LastUpTo k N tp (asUInt64 (r.searchEnd N tp left ((k - 1 : Nat) : Int))) := by
  have search := search_windowProbes (r := r) (N := N) k pos tp
  have first := mt position_gt.1 start
  refine .of_isLast w ?_
  rw [searchEnd_eq (by omega) start (search.low_le first covers.nonempty covers.passes),
    search.isLast_iff covers first]
  intro p probe eq
  have low := Search.low_le_probe covers.passes probe (by simp [eq])
  have high := (search.probe_mem probe).2
  rw [position_eq] at eq
  have le := ordered.timeAt_le w low (j := p + 1) (by omega) (by omega)
  exact position_gt.2 (UInt64.lt_of_le_of_ne (eq ▸ le) (stops p probe eq).symm)

/-- The search for the start, if it does not stop too late. -/
theorem searchStart_firstFrom (ordered : r.InOrder k N) (w : Counted k N)
    (covers : r.SearchCovers k N left tp) (pos : 0 ≤ left)
    (start : r.timeAt N ((k - N : Nat) : Int) < tp)
    (finish : ¬r.timeAt N ((k - 1 : Nat) : Int) < tp) (stops : r.StopsAtFirst k N left tp) :
    r.FirstFrom k N tp (asUInt64 (r.searchStart N tp left ((k - 1 : Nat) : Int) (k - 1))) := by
  have search := search_windowProbes (r := r) (N := N) k pos tp
  have first := position_lt.2 start
  have last := mt position_lt.1 finish
  have size := w.size
  refine .of_isFirst w ?_
  rw [searchStart_eq (Int.natCast_nonneg (k - N)) (by omega) finish
      (search.low_le (by simp [first]) covers.nonempty covers.passes) search.le_right,
    search.isFirst_iff covers first last]
  intro p probe eq
  have low := Search.low_le_probe covers.passes probe (by simp [eq])
  have high := (search.probe_mem probe).2
  have ne : p ≠ ((k - N : Nat) : Int) := by
    rintro rfl
    cases first.symm.trans eq
  rw [position_eq] at eq
  have le := ordered.timeAt_le w (i := p - 1) (j := p) (by omega) (by omega) (by omega)
  exact position_lt.2 (UInt64.lt_of_le_of_ne (eq ▸ le) (stops p probe eq))

theorem rangeEnd_fst (w : Counted k N) (left : Int) (tp : UInt64) :
    (r.rangeEnd N (k - 1) left tp).1 =
      if r.timeAtUnsigned N (k - 1) ≤ tp then k - 1
      else asUInt64 (r.searchEnd N tp left ((k - 1 : Nat) : Int)) := by
  have size := w.size
  rw [rangeEnd, asInt64_of_mem (x := ((k - 1 : Nat) : Int)) (by omega) (by omega)]
  dsimp only
  split <;> rfl

theorem rangeStart_fst (w : Counted k N) (left : Int) (tp : UInt64) :
    (r.rangeStart N (k - N) (k - 1) left tp).1 =
      if tp ≤ r.timeAtUnsigned N (k - N) then k - N
      else asUInt64 (r.searchStart N tp left ((k - 1 : Nat) : Int) (k - 1)) := by
  have size := w.size
  rw [rangeStart, asInt64_of_mem (x := ((k - 1 : Nat) : Int)) (by omega) (by omega)]
  dsimp only
  split <;> rfl

theorem lastUpTo_newest (w : Counted k N) (newest : r.timeAtUnsigned N (k - 1) ≤ tp) :
    r.LastUpTo k N tp (k - 1) :=
  ⟨retained_last w.blocks w.pos, newest, fun _ other more =>
    absurd more (Nat.not_lt.2 (Nat.le_sub_one_of_lt other.2))⟩

theorem firstFrom_oldest (w : Counted k N) (oldest : tp ≤ r.timeAtUnsigned N (k - N)) :
    r.FirstFrom k N tp (k - N) :=
  ⟨retained_first w.blocks w.pos, oldest, fun _ other less =>
    absurd less (Nat.not_lt.2 other.1)⟩

/-- The last update that is not after a time is in force at it. -/
theorem LastUpTo.inForce {e : Nat} (last : r.LastUpTo k N tp e) (ordered : r.InOrder k N) :
    r.InForce k N tp e := by
  refine ⟨last.retained, last.notAfter, fun j other notAfter => ?_⟩
  refine ordered j e other last.retained (Nat.not_lt.1 fun more => ?_)
  exact absurd notAfter (UInt64.not_le.2 (last.rest j other more))

/-- The newest update, or the search from the oldest one, leads to the update in force. -/
theorem rangeEnd_inForce (ordered : r.InOrder k N) (w : Counted k N)
    (start : ¬tp < r.timeAtUnsigned N (k - N)) :
    r.InForce k N tp (r.rangeEnd N (k - 1) ((k - N : Nat) : Int) tp).1 := by
  rw [rangeEnd_fst w]
  split
  · next newest => exact (lastUpTo_newest w newest).inForce ordered
  · have covers := ordered.covers_oldest w tp
    by_cases stopped : ∃ p ∈ r.windowProbes k N ((k - N : Nat) : Int) tp, r.timeAt N p = tp
    · obtain ⟨p, probe, eq⟩ := stopped
      have between := (search_windowProbes k (by omega) tp).probe_mem probe
      obtain ⟨j, retained, rfl⟩ := exists_retained w.pos between.1 (Int.le_of_lt between.2)
      rw [searchEnd_of_probe (by omega) probe eq, w.asUInt64_retained retained]
      rw [timeAt_natCast w.blocks'] at eq
      exact ⟨retained, UInt64.le_of_eq eq, fun _ _ notAfter => eq ▸ notAfter⟩
    · rw [← timeAt_natCast w.blocks'] at start
      exact (searchEnd_lastUpTo ordered w covers (by omega) start
        fun p probe eq => absurd ⟨p, probe, eq⟩ stopped).inForce ordered

end MdHeadPlus

/-! ## The query by time -/

namespace ShmMdPlus

variable {s : ShmMdPlus α} {instrument : Name} {i k N : Nat}

/-- `get_md_by_tp` finds the update in force, if the oldest one is not after the time. -/
theorem getMdByTp_inForce (found : s.mInstrumentsAddress.lookup (comHash instrument) = some i)
    (blockNum : s.mdBlockNum = N) (blocks : 1 ≤ N) (blocks' : N < 2147483648)
    (index : (s.shm.record i).currentIndex = k) (pos : 1 ≤ k) (size : k ≤ 4611686018427387904)
    (ordered : (s.shm.record i).InOrder k N) (endTp : UInt64) :
    ((s.getMdByTp instrument endTp).ret = true ↔
        (s.shm.record i).timeAtUnsigned N (k - N) ≤ endTp) ∧
      ((s.getMdByTp instrument endTp).ret = true →
        (s.getMdByTp instrument endTp).startIndex = (s.getMdByTp instrument endTp).endIndex ∧
        (s.shm.record i).InForce k N endTp (s.getMdByTp instrument endTp).endIndex) := by
  rw [getMdByTp, found]
  simp only [blockNum, MdHeadPlus.lastIndex_eq index pos size,
    MdHeadPlus.firstIndex_eq index blocks blocks' size]
  split
  · next after => simpa using after
  · next notAfter =>
      refine ⟨by simpa using notAfter, fun _ => ⟨rfl, ?_⟩⟩
      rw [asInt64_of_mem (x := ((k - N : Nat) : Int)) (by omega) (by omega)]
      exact MdHeadPlus.rangeEnd_inForce ordered ⟨blocks, blocks', pos, size⟩ notAfter

/-- The store of one instrument after the updates of the times 1 to 10, of which it keeps 3. -/
abbrev tenth : ShmMdPlus UInt64 := ((start Region.zeroed 1 3 [[65]]).run tenUpdates).1

example : (tenth.getMdByTp [65] 9).endIndex = 8 := by decide +kernel

theorem tenth_times (i : Nat) (retained : Retained 10 3 i) :
    (tenth.shm.record 0).timeAtUnsigned (3 : Nat) i = UInt64.ofNat (i + 1) := by
  obtain ⟨low, high⟩ := retained
  obtain rfl | rfl | rfl : i = 7 ∨ i = 8 ∨ i = 9 := by omega
  all_goals decide +kernel

theorem tenth_inOrder : (tenth.shm.record 0).InOrder 10 3 := by
  intro i j retained retained' le
  rw [tenth_times i retained, tenth_times j retained']
  obtain ⟨-, high⟩ := retained
  obtain ⟨-, high'⟩ := retained'
  exact (UInt64.ofNat_le_iff_le (by rw [UInt64.size]; omega) (by rw [UInt64.size]; omega)).2
    (by omega)

theorem getMdByTp_inForce_tenth :
    ((tenth.getMdByTp [65] 9).ret = true ↔ (tenth.shm.record 0).timeAtUnsigned (3 : Nat) 7 ≤ 9) ∧
      ((tenth.getMdByTp [65] 9).ret = true →
        (tenth.getMdByTp [65] 9).startIndex = (tenth.getMdByTp [65] 9).endIndex ∧
        (tenth.shm.record 0).InForce 10 3 9 (tenth.getMdByTp [65] 9).endIndex) :=
  getMdByTp_inForce (by decide +kernel) (by decide +kernel) (by decide) (by decide)
    (by decide +kernel) (by decide) (by decide) tenth_inOrder 9

end ShmMdPlus
end RazorCrypto.Shm
