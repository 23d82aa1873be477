import RazorCrypto.Shm.Plus.Search

/-!
# The window of a range query

`get_md` answers with the retained updates from one time to another, if both of its searches end
where they should. They stop at the first update of the time that they meet: where several
updates share that time, the search for the end may stop too early, and the one for the start
too late. A huge `offset_sec` is negative as a signed number, which puts the shortcut behind the
newest update, so that a search from it does not look at anything.
-/

universe u

namespace RazorCrypto.Shm

open MachineInt Bisection

variable {α : Type u} [TimedMarketData α]

/-- The shortcut of an `offset_sec` for which it is computed without overflow is one of the
indices. -/
theorem startShort_bounds {last : Nat} (size : last < 9223372036854775807) {offsetSec : UInt64}
    (bound : offsetSec.toNat + 2 < 2305843009213693952) :
    0 ≤ startShort last offsetSec ∧ startShort last offsetSec ≤ last := by
  have offset : asInt64 offsetSec.toNat = offsetSec.toNat := asInt64_of_mem (by omega) (by omega)
  have index : asInt64 last = last := asInt64_of_mem (by omega) (by omega)
  rw [startShort, offset, index, asInt64_of_mem (by omega) (by omega)]
  split <;> omega

/-- The update lies between the two times. -/
def MdHeadPlus.InRange (r : MdHeadPlus α) (N : Nat) (startTp endTp : UInt64) (j : Nat) : Prop :=
  startTp ≤ r.timeAtUnsigned N j ∧ r.timeAtUnsigned N j ≤ endTp

/-- The answer is exactly the retained updates from `startTp` to `endTp`. -/
structure ExactWindow (r : MdHeadPlus α) (k N : Nat) (startTp endTp : UInt64) (result : MdRet) :
    Prop where
  found : result.ret = true → ∀ j, Retained k N j →
    (result.startIndex ≤ j ∧ j ≤ result.endIndex ↔ r.InRange N startTp endTp j)
  none : result.ret = false → ∀ j, Retained k N j → ¬r.InRange N startTp endTp j

namespace MdHeadPlus

/-- Where `get_md` starts to search for a time. -/
def searchLeft (r : MdHeadPlus α) (k N : Nat) (short : Int) (tp : UInt64) : Int :=
  if tp ≤ r.timeAt N short then ((k - N : Nat) : Int) else short

/-- When the end is found: it is the newest update, or the search stops right, or its left end
is behind the newest update and the end is the one before that. -/
def EndFound (r : MdHeadPlus α) (k N : Nat) (short : Int) (tp : UInt64) : Prop :=
  r.timeAtUnsigned N (k - 1) ≤ tp ∨
    (r.searchLeft k N short tp ≤ ((k - 1 : Nat) : Int) ∧
      r.StopsAtLast k N (r.searchLeft k N short tp) tp) ∨
    (((k - 1 : Nat) : Int) < r.searchLeft k N short tp ∧ r.timeAtUnsigned N (k - 2) ≤ tp)

/-- When the start is found: it is the oldest update, or the search stops right, or its left end
is behind the newest update and the start is that one. -/
def StartFound (r : MdHeadPlus α) (k N : Nat) (short : Int) (tp : UInt64) : Prop :=
  tp ≤ r.timeAtUnsigned N (k - N) ∨
    (r.searchLeft k N short tp ≤ ((k - 1 : Nat) : Int) ∧
      r.StopsAtFirst k N (r.searchLeft k N short tp) tp) ∨
    (((k - 1 : Nat) : Int) < r.searchLeft k N short tp ∧ r.timeAtUnsigned N (k - 2) < tp)

/-- When `get_md` answers exactly: the window lies outside the retained updates, or both ends are
found, or there is nothing to find and both searches start behind the newest update. -/
def Answers (r : MdHeadPlus α) (k N : Nat) (short : Int) (startTp endTp : UInt64) : Prop :=
  r.timeAtUnsigned N (k - 1) < startTp ∨ endTp < r.timeAtUnsigned N (k - N) ∨
    (r.EndFound k N short endTp ∧ r.StartFound k N short startTp) ∨
    (((k - 1 : Nat) : Int) < short ∧ r.timeAt N short < startTp ∧
      ∀ j, Retained k N j → ¬r.InRange N startTp endTp j)

/-- At most one retained update has this time. -/
def Once (r : MdHeadPlus α) (k N : Nat) (tp : UInt64) : Prop :=
  ∀ i j, Retained k N i → Retained k N j →
    r.timeAtUnsigned N i = tp → r.timeAtUnsigned N j = tp → i = j

/-- The window lies outside the retained updates, or each search that is made is for a time that at
most one of them has, and the shortcut is computed without overflow. -/
def SearchesOnce (r : MdHeadPlus α) (k N : Nat) (startTp endTp offsetSec : UInt64) : Prop :=
  r.timeAtUnsigned N (k - 1) < startTp ∨ endTp < r.timeAtUnsigned N (k - N) ∨
    ((r.timeAtUnsigned N (k - 1) ≤ endTp ∨
        r.Once k N endTp ∧ offsetSec.toNat + 2 < 2305843009213693952) ∧
      (startTp ≤ r.timeAtUnsigned N (k - N) ∨
        r.Once k N startTp ∧ offsetSec.toNat + 2 < 2305843009213693952))

/-- How the end of the range can come out. -/
inductive EndOutcome (r : MdHeadPlus α) (k N : Nat) (short : Int) (tp : UInt64) (e : Nat) : Prop
  | exact (last : r.LastUpTo k N tp e) (found : r.EndFound k N short tp)
  | early (missed : ¬r.EndFound k N short tp) (next : Retained k N (e + 1))
      (same : r.timeAtUnsigned N (e + 1) = tp)
  | behind (missed : ¬r.EndFound k N short tp) (short : ((k - 1 : Nat) : Int) < short)
      (index : e + 2 = k) (retained : Retained k N e) (after : tp < r.timeAtUnsigned N e)

/-- How the start of the range can come out. -/
inductive StartOutcome (r : MdHeadPlus α) (k N : Nat) (short : Int) (tp : UInt64) (s : Nat) : Prop
  | exact (first : r.FirstFrom k N tp s) (found : r.StartFound k N short tp)
  | late (missed : ¬r.StartFound k N short tp) (pos : 1 ≤ s) (previous : Retained k N (s - 1))
      (same : r.timeAtUnsigned N (s - 1) = tp)
  | behind (missed : ¬r.StartFound k N short tp) (behind : ((k - 1 : Nat) : Int) < short)
      (shortTime : r.timeAt N short < tp) (index : s + 1 = k) (pos : 1 ≤ s)
      (previous : Retained k N (s - 1)) (notBefore : tp ≤ r.timeAtUnsigned N (s - 1))

variable {r : MdHeadPlus α} {k N : Nat} {tp : UInt64} {short left : Int}

/-- The shortcut is only taken if the time there, and with it each one in front, is earlier. -/
theorem InOrder.covers_searchLeft (ordered : r.InOrder k N) (w : Counted k N)
    (passes : r.Passes k N (r.searchLeft k N short tp) tp)
    (reach : r.searchLeft k N short tp ≤ ((k - 1 : Nat) : Int)) :
    r.SearchCovers k N (r.searchLeft k N short tp) tp := by
  refine ordered.covers w passes fun i low front _ => ?_
  unfold searchLeft at front reach
  split at front
  · omega
  · next early =>
      rw [if_neg early] at reach
      exact UInt64.lt_of_le_of_lt (ordered.timeAt_le w low (Int.le_of_lt front) reach)
        (UInt64.not_le.1 early)

theorem searchLeft_low (inside : ((k - N : Nat) : Int) ≤ short) :
    ((k - N : Nat) : Int) ≤ r.searchLeft k N short tp := by
  unfold searchLeft
  split
  · exact Int.le_refl _
  · exact inside

theorem searchLeft_bounds (w : Counted k N) (nonneg : 0 ≤ short)
    (reach : short ≤ ((k - 1 : Nat) : Int)) (tp : UInt64) :
    0 ≤ r.searchLeft k N short tp ∧ r.searchLeft k N short tp ≤ ((k - 1 : Nat) : Int) := by
  have blocks := w.blocks
  unfold searchLeft
  split <;> omega

/-- A search from behind the newest update does not look at anything. -/
theorem searchLoop_behind {right : Int} (behind : right < left) :
    searchLoop (r.timeAt N) tp left right = right := by
  rw [searchLoop, if_neg (by omega)]

/-- Two updates have different times, so the window has more than one. -/
theorem before_newest (w : Counted k N)
    (ne : r.timeAtUnsigned N (k - N) ≠ r.timeAtUnsigned N (k - 1)) : 2 ≤ k ∧ k - N ≤ k - 2 := by
  have different : k - N ≠ k - 1 := fun same => ne (congrArg _ same)
  have blocks := w.blocks
  have pos := w.pos
  omega

/-- A search looks at retained updates, and never at the newest. -/
theorem exists_retained_probe (w : Counted k N) (low : ((k - N : Nat) : Int) ≤ left) {p : Int}
    (probe : p ∈ r.windowProbes k N left tp) :
    ∃ j : Nat, Retained k N j ∧ Retained k N (j + 1) ∧ p = j := by
  have between := (search_windowProbes k (by omega) tp).probe_mem probe
  obtain ⟨j, retained, rfl⟩ := exists_retained w.pos (Int.le_trans low between.1)
    (Int.le_of_lt between.2)
  exact ⟨j, retained, ⟨by have low := retained.1; omega, by omega⟩, rfl⟩

/-- A search for a time that one update has stops right. -/
theorem Once.stopsAtLast (once : r.Once k N tp) (w : Counted k N)
    (low : ((k - N : Nat) : Int) ≤ left) : r.StopsAtLast k N left tp := by
  intro p probe eq same
  obtain ⟨j, retained, next, rfl⟩ := exists_retained_probe w low probe
  rw [timeAt_natCast w.blocks'] at eq
  rw [← Int.natCast_succ, timeAt_natCast w.blocks'] at same
  exact absurd (once j (j + 1) retained next eq same) j.succ_ne_self.symm

theorem Once.stopsAtFirst (once : r.Once k N tp) (w : Counted k N)
    (low : ((k - N : Nat) : Int) ≤ left) (oldest : r.timeAtUnsigned N (k - N) < tp) :
    r.StopsAtFirst k N left tp := by
  intro p probe eq same
  obtain ⟨j, retained, -, rfl⟩ := exists_retained_probe w low probe
  rw [timeAt_natCast w.blocks'] at eq
  have ne : j ≠ k - N := by
    rintro rfl
    exact absurd eq (UInt64.ne_of_lt oldest)
  have below := retained.1
  have bound := retained.2
  have back : (j : Int) - 1 = ((j - 1 : Nat) : Int) := by omega
  rw [back, timeAt_natCast w.blocks'] at same
  have twice := once j (j - 1) retained ⟨by omega, by omega⟩ eq same
  omega

/-- A search that starts behind the newest update starts at the shortcut. -/
theorem searchLeft_behind (w : Counted k N)
    (behind : ((k - 1 : Nat) : Int) < r.searchLeft k N short tp) :
    ((k - 1 : Nat) : Int) < short ∧ r.timeAt N short < tp := by
  have blocks := w.blocks
  unfold searchLeft at behind
  split at behind
  · omega
  · next early => exact ⟨behind, UInt64.not_le.1 early⟩

/-- The search for the end from behind the newest update leads to the update before that. -/
theorem searchEnd_behind (w : Counted k N) (behind : ((k - 1 : Nat) : Int) < left)
    (several : 2 ≤ k) (older : tp < r.timeAtUnsigned N (k - 1)) :
    asUInt64 (r.searchEnd N tp left ((k - 1 : Nat) : Int)) = k - 2 := by
  have size := w.size
  rw [searchEnd, searchLoop_behind behind, timeAt_natCast w.blocks', if_pos ⟨older, by omega⟩,
    asUInt64_of_mem (by omega) (by omega)]
  omega

/-- The search for the start from there leads to the newest update. -/
theorem searchStart_behind (w : Counted k N) (behind : ((k - 1 : Nat) : Int) < left)
    (newer : tp ≤ r.timeAtUnsigned N (k - 1)) :
    asUInt64 (r.searchStart N tp left ((k - 1 : Nat) : Int) (k - 1)) = k - 1 := by
  have size := w.size
  rw [searchStart, searchLoop_behind behind, timeAt_natCast w.blocks',
    if_neg fun both => absurd both.1 (UInt64.not_lt.2 newer), asUInt64_natCast (by omega)]

theorem rangeEnd_outcome (ordered : r.InOrder k N) (w : Counted k N)
    (inside : ((k - N : Nat) : Int) ≤ short) (start : r.timeAtUnsigned N (k - N) ≤ tp) :
    r.EndOutcome k N short tp (r.rangeEnd N (k - 1) (r.searchLeft k N short tp) tp).1 := by
  have low : ((k - N : Nat) : Int) ≤ r.searchLeft k N short tp := searchLeft_low inside
  have size := w.size
  rw [rangeEnd_fst w]
  split
  · next newest => exact .exact (lastUpTo_newest w newest) (.inl newest)
  next older =>
  obtain behind | reach := Int.lt_or_le ((k - 1 : Nat) : Int) (r.searchLeft k N short tp)
  · have several := before_newest w fun same => older (same ▸ start)
    rw [searchEnd_behind w behind several.1 (UInt64.not_le.1 older)]
    have retained : Retained k N (k - 2) := ⟨several.2, by omega⟩
    by_cases previous : r.timeAtUnsigned N (k - 2) ≤ tp
    · refine .exact ⟨retained, previous, fun j other more => ?_⟩ (.inr (.inr ⟨behind, previous⟩))
      obtain rfl : j = k - 1 := by
        have bound := other.2
        omega
      exact UInt64.not_le.1 older
    · refine .behind ?_ (searchLeft_behind w behind).1 (by omega) retained
        (UInt64.not_le.1 previous)
      rintro (newest | ⟨reach, -⟩ | ⟨-, notAfter⟩)
      · exact older newest
      · omega
      · exact previous notAfter
  · have covers := ordered.covers_searchLeft w (passes_of_low low tp) reach
    have first : ¬tp < r.timeAt N ((k - N : Nat) : Int) := by
      rwa [timeAt_natCast w.blocks', UInt64.not_lt]
    by_cases stops : r.StopsAtLast k N (r.searchLeft k N short tp) tp
    · exact .exact (searchEnd_lastUpTo ordered w covers (by omega) first stops)
        (.inr (.inl ⟨reach, stops⟩))
    · obtain ⟨p, probe, eq, same⟩ : ∃ p ∈ r.windowProbes k N (r.searchLeft k N short tp) tp,
          r.timeAt N p = tp ∧ r.timeAt N (p + 1) = tp := by
        simpa [StopsAtLast] using stops
      obtain ⟨j, retained, next, rfl⟩ := exists_retained_probe w low probe
      rw [searchEnd_of_probe (by omega) probe eq, w.asUInt64_retained retained]
      rw [← Int.natCast_succ, timeAt_natCast w.blocks'] at same
      refine .early ?_ next same
      rintro (newest | ⟨-, stops'⟩ | ⟨behind, -⟩)
      · exact older newest
      · exact stops stops'
      · omega

theorem rangeStart_outcome (ordered : r.InOrder k N) (w : Counted k N)
    (inside : ((k - N : Nat) : Int) ≤ short) (finish : tp ≤ r.timeAtUnsigned N (k - 1)) :
    r.StartOutcome k N short tp
      (r.rangeStart N (k - N) (k - 1) (r.searchLeft k N short tp) tp).1 := by
  have low : ((k - N : Nat) : Int) ≤ r.searchLeft k N short tp := searchLeft_low inside
  have size := w.size
  rw [rangeStart_fst w]
  split
  · next oldest => exact .exact (firstFrom_oldest w oldest) (.inl oldest)
  next newer =>
  obtain behind | reach := Int.lt_or_le ((k - 1 : Nat) : Int) (r.searchLeft k N short tp)
  · have several := before_newest w fun same => newer (same ▸ finish)
    rw [searchStart_behind w behind finish]
    have retained : Retained k N (k - 2) := ⟨several.2, by omega⟩
    by_cases previous : r.timeAtUnsigned N (k - 2) < tp
    · refine .exact ⟨retained_last w.blocks w.pos, finish, fun j other less => ?_⟩
        (.inr (.inr ⟨behind, previous⟩))
      exact UInt64.lt_of_le_of_lt (ordered j (k - 2) other retained (by omega)) previous
    · obtain ⟨past, shortTime⟩ := searchLeft_behind w behind
      refine .behind ?_ past shortTime (by omega) (by omega) retained (UInt64.not_lt.1 previous)
      rintro (oldest | ⟨reach, -⟩ | ⟨-, before⟩)
      · exact newer oldest
      · omega
      · exact previous before
  · have covers := ordered.covers_searchLeft w (passes_of_low low tp) reach
    have first : r.timeAt N ((k - N : Nat) : Int) < tp := by
      rwa [timeAt_natCast w.blocks', ← UInt64.not_le]
    have last : ¬r.timeAt N ((k - 1 : Nat) : Int) < tp := by
      rwa [timeAt_natCast w.blocks', UInt64.not_lt]
    by_cases stops : r.StopsAtFirst k N (r.searchLeft k N short tp) tp
    · exact .exact (searchStart_firstFrom ordered w covers (by omega) first last stops)
        (.inr (.inl ⟨reach, stops⟩))
    · obtain ⟨p, probe, eq, same⟩ : ∃ p ∈ r.windowProbes k N (r.searchLeft k N short tp) tp,
          r.timeAt N p = tp ∧ r.timeAt N (p - 1) = tp := by
        simpa [StopsAtFirst] using stops
      obtain ⟨j, retained, -, rfl⟩ := exists_retained_probe w low probe
      have ne : j ≠ k - N := by
        rintro rfl
        exact absurd eq (UInt64.ne_of_lt first)
      have below := retained.1
      have bound := retained.2
      have previous : Retained k N (j - 1) := ⟨by omega, by omega⟩
      have pos : 1 ≤ j := by omega
      rw [searchStart_of_probe (by omega) probe eq, w.asUInt64_retained retained]
      have back : (j : Int) - 1 = ((j - 1 : Nat) : Int) := by omega
      rw [back, timeAt_natCast w.blocks'] at same
      refine .late ?_ pos previous same
      rintro (oldest | ⟨-, stops'⟩ | ⟨behind, -⟩)
      · exact newer oldest
      · exact stops stops'
      · omega

section Range

variable {startTp endTp : UInt64} {s e : Nat}

/-- With both ends found, the range is the window. -/
theorem between_iff (ordered : r.InOrder k N) (first : r.FirstFrom k N startTp s)
    (last : r.LastUpTo k N endTp e) {j : Nat} (retained : Retained k N j) :
    s ≤ j ∧ j ≤ e ↔ r.InRange N startTp endTp j := by
  constructor
  · rintro ⟨low, high⟩
    exact ⟨UInt64.le_trans first.notBefore (ordered s j first.retained retained low),
      UInt64.le_trans (ordered j e retained last.retained high) last.notAfter⟩
  · rintro ⟨notBefore, notAfter⟩
    refine ⟨Nat.not_lt.1 fun less => ?_, Nat.not_lt.1 fun more => ?_⟩
    · exact absurd notBefore (UInt64.not_le.2 (first.rest j retained less))
    · exact absurd notAfter (UInt64.not_le.2 (last.rest j retained more))

/-- A range that is the window has its ends found, or there was nothing to find. -/
theorem found_of_range (ordered : r.InOrder k N) (le : startTp ≤ endTp)
    (ends : r.EndOutcome k N short endTp e) (start : r.StartOutcome k N short startTp s)
    (range : ∀ j, Retained k N j → (s ≤ j ∧ j ≤ e ↔ r.InRange N startTp endTp j)) :
    (r.EndFound k N short endTp ∧ r.StartFound k N short startTp) ∨
      (((k - 1 : Nat) : Int) < short ∧ r.timeAt N short < startTp ∧
        ∀ j, Retained k N j → ¬r.InRange N startTp endTp j) := by
  cases ends with
  | early missed next same =>
      have inside := (range (e + 1) next).2 ⟨same ▸ le, UInt64.le_of_eq same⟩
      omega
  | behind missed short index retained after =>
      have outside : ¬(s ≤ e ∧ e ≤ e) := fun both =>
        absurd ((range e retained).1 both).2 (UInt64.not_le.2 after)
      cases start with
      | exact first _ =>
          have before := first.rest e retained (by omega)
          exact absurd (UInt64.lt_trans before (UInt64.lt_of_le_of_lt le after))
            (UInt64.lt_irrefl _)
      | late _ pos previous same =>
          have upTo := ordered e (s - 1) retained previous (by omega)
          rw [same] at upTo
          exact absurd (UInt64.le_trans upTo le) (UInt64.not_le.2 after)
      | behind _ behind shortTime index' =>
          refine .inr ⟨behind, shortTime, fun j retained' inRange => ?_⟩
          have between := (range j retained').2 inRange
          omega
  | exact last found =>
      cases start with
      | exact _ found' => exact .inl ⟨found, found'⟩
      | late _ pos previous same =>
          have inside := (range (s - 1) previous).2 ⟨UInt64.le_of_eq same.symm, same ▸ le⟩
          omega
      | behind _ behind shortTime index pos previous notBefore =>
          refine .inr ⟨behind, shortTime, fun j retained' inRange => ?_⟩
          have between := (range j retained').2 inRange
          have upTo := ordered (s - 1) e previous last.retained (by omega)
          have inside := (range (s - 1) previous).2
            ⟨notBefore, UInt64.le_trans upTo last.notAfter⟩
          omega

/-- With both ends found, or nothing to find from behind the newest update, the range is the
window. -/
theorem range_of_found (ordered : r.InOrder k N) (w : Counted k N) (le : startTp ≤ endTp)
    (oldest : r.timeAtUnsigned N (k - N) ≤ endTp)
    (ends : r.EndOutcome k N short endTp e) (start : r.StartOutcome k N short startTp s)
    (found : (r.EndFound k N short endTp ∧ r.StartFound k N short startTp) ∨
      (((k - 1 : Nat) : Int) < short ∧ r.timeAt N short < startTp ∧
        ∀ j, Retained k N j → ¬r.InRange N startTp endTp j))
    (j : Nat) (retained : Retained k N j) :
    s ≤ j ∧ j ≤ e ↔ r.InRange N startTp endTp j := by
  obtain ⟨foundEnd, foundStart⟩ | ⟨past, shortTime, empty⟩ := found
  · cases ends with
    | early missed => exact absurd foundEnd missed
    | behind missed => exact absurd foundEnd missed
    | exact last =>
      cases start with
      | late missed => exact absurd foundStart missed
      | behind missed => exact absurd foundStart missed
      | exact first => exact between_iff ordered first last retained
  · refine ⟨fun ⟨low, high⟩ => ?_, fun inRange => absurd inRange (empty j retained)⟩
    cases ends with
    | early _ next same => exact absurd ⟨same ▸ le, UInt64.le_of_eq same⟩ (empty (e + 1) next)
    | exact last =>
      cases start with
      | exact first => exact (between_iff ordered first last retained).1 ⟨low, high⟩
      | late _ _ previous same =>
          exact absurd ⟨UInt64.le_of_eq same.symm, same ▸ le⟩ (empty (s - 1) previous)
      | behind _ _ _ _ _ previous notBefore =>
          exact ⟨UInt64.le_trans notBefore (ordered (s - 1) j previous retained (by omega)),
            UInt64.le_trans (ordered j e retained last.retained high) last.notAfter⟩
    | behind _ _ index retained' after =>
      cases start with
      | exact first foundStart =>
          obtain oldest' | ⟨reach, -⟩ | ⟨-, before⟩ := foundStart
          · exact absurd ⟨oldest', oldest⟩ (empty (k - N) (retained_first w.blocks w.pos))
          · rw [searchLeft, if_neg (UInt64.not_le.2 shortTime)] at reach
            omega
          · obtain rfl : e = k - 2 := by omega
            exact absurd (UInt64.lt_trans before (UInt64.lt_of_le_of_lt le after))
              (UInt64.lt_irrefl _)
      | late _ _ previous same =>
          exact absurd ⟨UInt64.le_of_eq same.symm, same ▸ le⟩ (empty (s - 1) previous)
      | behind _ _ _ index' => omega

end Range

end MdHeadPlus

namespace ShmMdPlus

variable {s : ShmMdPlus α} {instrument : Name} {i k N : Nat}

/-- `get_md` answers with exactly the retained updates between the two times under the condition
of `Answers`, as long as the shortcut is not in front of the retained updates. -/
theorem getMd_exact_iff (found : s.mInstrumentsAddress.lookup (comHash instrument) = some i)
    (blockNum : s.mdBlockNum = N) (blocks : 1 ≤ N) (blocks' : N < 2147483648)
    (index : (s.shm.record i).currentIndex = k) (pos : 1 ≤ k) (size : k ≤ 4611686018427387904)
    (ordered : (s.shm.record i).InOrder k N) {startTp endTp offsetSec : UInt64}
    (le : startTp ≤ endTp) (shortcut : ((k - N : Nat) : Int) ≤ startShort (k - 1) offsetSec) :
    ExactWindow (s.shm.record i) k N startTp endTp (s.getMd instrument startTp endTp offsetSec) ↔
      (s.shm.record i).Answers k N (startShort (k - 1) offsetSec) startTp endTp := by
  have w : Counted k N := ⟨blocks, blocks', pos, size⟩
  have last := MdHeadPlus.lastIndex_eq index pos size
  have first := MdHeadPlus.firstIndex_eq index blocks blocks' size
  have oldest : asInt64 ((k - N : Nat) : Int) = ((k - N : Nat) : Int) :=
    asInt64_of_mem (by omega) (by omega)
  rw [getMd, found, if_neg (UInt64.not_lt.2 le)]
  simp only [blockNum, last, first, oldest]
  generalize s.shm.record i = r at ordered
  split
  · next outside =>
      refine ⟨fun _ => outside.elim .inl fun after => .inr (.inl after), fun _ => ⟨?_, ?_⟩⟩
      · intro answer
        cases answer
      rintro - j retained ⟨notBefore, notAfter⟩
      obtain before | after := outside
      · have upTo := ordered j (k - 1) retained (retained_last blocks pos)
          (Nat.le_sub_one_of_lt retained.2)
        exact absurd (UInt64.le_trans notBefore upTo) (UInt64.not_le.2 before)
      · have above := ordered (k - N) j (retained_first blocks pos) retained retained.1
        exact absurd (UInt64.le_trans above notAfter) (UInt64.not_le.2 after)
  · next inside =>
      rw [not_or, UInt64.not_lt, UInt64.not_lt] at inside
      have ends := MdHeadPlus.rangeEnd_outcome ordered w shortcut inside.2
      have start := MdHeadPlus.rangeStart_outcome ordered w shortcut inside.1
      constructor
      · intro exactly
        exact .inr (.inr (MdHeadPlus.found_of_range ordered le ends start (exactly.found rfl)))
      · rintro (before | after | found)
        · exact absurd inside.1 (UInt64.not_le.2 before)
        · exact absurd inside.2 (UInt64.not_le.2 after)
        · refine ⟨fun _ => MdHeadPlus.range_of_found ordered w le inside.2 ends start found, ?_⟩
          intro answer
          cases answer

/-- The store of one instrument with four updates, of which two have the same time. -/
abbrev repeated : ShmMdPlus UInt64 :=
  ((start Region.zeroed 1 4 [[65]]).run
    [⟨[65], 1, none⟩, ⟨[65], 2, none⟩, ⟨[65], 2, none⟩, ⟨[65], 3, none⟩]).1

theorem repeated_inOrder : (repeated.shm.record 0).InOrder 4 4 := by
  have times : ∀ i, Retained 4 4 i →
      (repeated.shm.record 0).timeAtUnsigned (4 : Nat) i = [1, 2, 2, 3].getD i 0 := by
    rintro i ⟨-, high⟩
    obtain rfl | rfl | rfl | rfl : i = 0 ∨ i = 1 ∨ i = 2 ∨ i = 3 := by omega
    all_goals decide +kernel
  intro i j retained retained' le
  rw [times i retained, times j retained']
  obtain ⟨-, high⟩ := retained'
  have all : ∀ j < 4, ∀ i ≤ j, ([1, 2, 2, 3].getD i 0 : UInt64) ≤ [1, 2, 2, 3].getD j 0 := by
    decide
  exact all j high i le

end ShmMdPlus

end RazorCrypto.Shm
