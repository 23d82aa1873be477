import RazorCrypto.Shm.Plus.ExactWindow

/-!
# The shortcut of a range query

`get_md` starts its searches at a shortcut some updates before the newest one, if the time there
is before the one it looks for. Once the record has wrapped, the shortcut can be an index that is no
longer retained: its slot holds a newer update. A search from there finds what one from the oldest
update finds if it takes every index that is not retained for an earlier one.
-/

universe u

namespace RazorCrypto.Shm

open MachineInt Bisection

variable {α : Type u} [TimedMarketData α]

namespace MdHeadPlus

/-- The retained updates have increasing times. -/
def Increasing (r : MdHeadPlus α) (k N : Nat) : Prop :=
  ∀ i j, Retained k N i → Retained k N j → i < j → r.timeAtUnsigned N i < r.timeAtUnsigned N j

/-- When the shortcut does not matter: the window lies outside the retained updates, or each of the
two searches that is made passes what lies in front of them. -/
def ShortcutAgrees (r : MdHeadPlus α) (k N : Nat) (short : Int) (startTp endTp : UInt64) : Prop :=
  r.timeAtUnsigned N (k - 1) < startTp ∨ endTp < r.timeAtUnsigned N (k - N) ∨
    ((r.timeAtUnsigned N (k - 1) ≤ endTp ∨ r.Passes k N (r.searchLeft k N short endTp) endTp) ∧
      (startTp ≤ r.timeAtUnsigned N (k - N) ∨
        r.Passes k N (r.searchLeft k N short startTp) startTp))

variable {r : MdHeadPlus α} {k N : Nat} {tp : UInt64} {short left : Int}

theorem Increasing.inOrder (increasing : r.Increasing k N) : r.InOrder k N := by
  intro i j retained retained' le
  obtain less | rfl := Nat.lt_or_eq_of_le le
  · exact UInt64.le_of_lt (increasing i j retained retained' less)
  · exact UInt64.le_refl _

theorem LastUpTo.unique {e e' : Nat} (last : r.LastUpTo k N tp e) (last' : r.LastUpTo k N tp e') :
    e = e' := by
  obtain less | same | more := Nat.lt_trichotomy e e'
  · exact absurd last'.notAfter (UInt64.not_le.2 (last.rest e' last'.retained less))
  · exact same
  · exact absurd last.notAfter (UInt64.not_le.2 (last'.rest e last.retained more))

theorem FirstFrom.unique {s s' : Nat} (first : r.FirstFrom k N tp s)
    (first' : r.FirstFrom k N tp s') : s = s' := by
  obtain less | same | more := Nat.lt_trichotomy s s'
  · exact absurd first.notBefore (UInt64.not_le.2 (first'.rest s first.retained less))
  · exact same
  · exact absurd first'.notBefore (UInt64.not_le.2 (first.rest s' first'.retained more))

/-- Where each time is there once, the neighbours of a probe have other times. -/
theorem Increasing.neighbours (increasing : r.Increasing k N) (w : Counted k N)
    (covers : r.SearchCovers k N left tp) (pos : 0 ≤ left) {p : Int}
    (probe : p ∈ r.windowProbes k N left tp) (eq : r.timeAt N p = tp) :
    tp < r.timeAt N (p + 1) ∧ (p ≠ ((k - N : Nat) : Int) → r.timeAt N (p - 1) < tp) := by
  have low : ((k - N : Nat) : Int) ≤ p :=
    Search.low_le_probe covers.passes probe (by simp [position_eq.2 eq])
  have high := ((search_windowProbes k pos tp).probe_mem probe).2
  have step : ∀ {i : Int}, ((k - N : Nat) : Int) ≤ i → i + 1 ≤ ((k - 1 : Nat) : Int) →
      r.timeAt N i < r.timeAt N (i + 1) := by
    intro i start finish
    obtain ⟨j, retained, rfl⟩ := exists_retained w.pos start (by omega)
    rw [← Int.natCast_succ, timeAt_natCast w.blocks', timeAt_natCast w.blocks']
    exact increasing j (j + 1) retained ⟨by omega, by omega⟩ j.lt_succ_self
  refine ⟨eq ▸ step low (by omega), fun ne => ?_⟩
  have previous := step (i := p - 1) (by omega) (by omega)
  rwa [Int.sub_add_cancel, eq] at previous

/-- The search does not leave the indices. -/
theorem searchLoop_nonneg {time : Int → UInt64} {right : Int} (pos : 0 ≤ left) (pos' : 0 ≤ right) :
    0 ≤ searchLoop time tp left right := by
  fun_induction searchLoop time tp left right with
  | case1 left right lt =>
      have between := midpoint lt
      omega
  | case2 left right lt =>
      have between := midpoint lt
      omega
  | case3 left right lt mid _ _ above ih => exact ih pos (by omega)
  | case4 left right lt mid _ _ ih =>
      have between : left ≤ mid ∧ (1 ≤ mid → mid < right) := midpoint lt
      exact ih (by omega) pos'
  | case5 left right => exact pos'

/-- A search that looks at a time that is not before, in front of the window, stays there. -/
theorem searchLoop_front (pos : 0 ≤ left) (stuck : ¬r.Passes k N left tp) :
    ∃ p : Int, searchLoop (r.timeAt N) tp left ((k - 1 : Nat) : Int) ≤ p ∧
      p < ((k - N : Nat) : Int) ∧ tp ≤ r.timeAt N p ∧
      0 ≤ searchLoop (r.timeAt N) tp left ((k - 1 : Nat) : Int) := by
  obtain ⟨p, probe, front, notBefore⟩ : ∃ p ∈ r.windowProbes k N left tp,
      p < ((k - N : Nat) : Int) ∧ tp ≤ r.timeAt N p := by
    simpa [Passes] using stuck
  have search := search_windowProbes (r := r) (N := N) k pos tp
  exact ⟨p, search.le_of_probe probe (position_ne_lt.2 notBefore), front, notBefore,
    searchLoop_nonneg pos (Int.natCast_nonneg _)⟩

theorem searchEnd_front (w : Counted k N) (pos : 0 ≤ left) (stuck : ¬r.Passes k N left tp) :
    asUInt64 (r.searchEnd N tp left ((k - 1 : Nat) : Int)) < k - N := by
  obtain ⟨p, upTo, front, -, nonneg⟩ := searchLoop_front pos stuck
  have size := w.size
  dsimp only [searchEnd]
  generalize searchLoop (r.timeAt N) tp left ((k - 1 : Nat) : Int) = found at upTo nonneg ⊢
  split
  · rw [asUInt64_of_mem (by omega) (by omega)]
    omega
  · rw [asUInt64_of_mem (by omega) (by omega)]
    omega

theorem searchStart_front (w : Counted k N) (pos : 0 ≤ left) (stuck : ¬r.Passes k N left tp)
    (last : Nat) : asUInt64 (r.searchStart N tp left ((k - 1 : Nat) : Int) last) < k - N := by
  obtain ⟨p, upTo, front, notBefore, nonneg⟩ := searchLoop_front pos stuck
  have size := w.size
  dsimp only [searchStart]
  generalize searchLoop (r.timeAt N) tp left ((k - 1 : Nat) : Int) = found at upTo nonneg ⊢
  split
  · next forward =>
      have ne : found ≠ p := by
        rintro rfl
        exact absurd forward.1 (UInt64.not_lt.2 notBefore)
      rw [asUInt64_of_mem (by omega) (by omega)]
      omega
  · rw [asUInt64_of_mem (by omega) (by omega)]
    omega

/-- A search of the window finds its end. -/
theorem Increasing.lastUpTo (increasing : r.Increasing k N) (w : Counted k N)
    (covers : r.SearchCovers k N left tp) (pos : 0 ≤ left)
    (start : r.timeAtUnsigned N (k - N) ≤ tp) :
    r.LastUpTo k N tp (asUInt64 (r.searchEnd N tp left ((k - 1 : Nat) : Int))) := by
  refine searchEnd_lastUpTo increasing.inOrder w covers pos ?_ fun p probe eq same => ?_
  · rwa [timeAt_natCast w.blocks', UInt64.not_lt]
  · have after := (increasing.neighbours w covers pos probe eq).1
    exact absurd same (UInt64.ne_of_lt after).symm

theorem Increasing.firstFrom (increasing : r.Increasing k N) (w : Counted k N)
    (covers : r.SearchCovers k N left tp) (pos : 0 ≤ left)
    (start : r.timeAtUnsigned N (k - N) < tp) (finish : tp ≤ r.timeAtUnsigned N (k - 1)) :
    r.FirstFrom k N tp (asUInt64 (r.searchStart N tp left ((k - 1 : Nat) : Int) (k - 1))) := by
  rw [← timeAt_natCast w.blocks'] at start finish
  refine searchStart_firstFrom increasing.inOrder w covers pos start (UInt64.not_lt.2 finish)
    fun p probe eq same => ?_
  have ne : p ≠ ((k - N : Nat) : Int) := by
    rintro rfl
    exact absurd eq (UInt64.ne_of_lt start)
  have before := (increasing.neighbours w covers pos probe eq).2 ne
  exact absurd same (UInt64.ne_of_lt before)

theorem rangeEnd_same_iff (increasing : r.Increasing k N) (w : Counted k N) (nonneg : 0 ≤ short)
    (reach : short ≤ ((k - 1 : Nat) : Int)) (start : r.timeAtUnsigned N (k - N) ≤ tp) :
    (r.rangeEnd N (k - 1) (r.searchLeft k N short tp) tp).1 =
        (r.rangeEnd N (k - 1) ((k - N : Nat) : Int) tp).1 ↔
      r.timeAtUnsigned N (k - 1) ≤ tp ∨ r.Passes k N (r.searchLeft k N short tp) tp := by
  have bounds := searchLeft_bounds (r := r) w nonneg reach tp
  have blocks := w.blocks
  rw [rangeEnd_fst w, rangeEnd_fst w]
  split
  · next newest => simp [newest]
  next older =>
  have ordered := increasing.inOrder
  have oldest := increasing.lastUpTo w (ordered.covers_oldest w tp) (Int.natCast_nonneg _) start
  simp only [older, false_or]
  constructor
  · intro same
    by_contra stuck
    have front := searchEnd_front w bounds.1 stuck
    rw [same] at front
    exact absurd oldest.retained.1 (Nat.not_le.2 front)
  · intro passes
    have covers := ordered.covers_searchLeft w passes bounds.2
    exact (increasing.lastUpTo w covers bounds.1 start).unique oldest

theorem rangeStart_same_iff (increasing : r.Increasing k N) (w : Counted k N) (nonneg : 0 ≤ short)
    (reach : short ≤ ((k - 1 : Nat) : Int)) (finish : tp ≤ r.timeAtUnsigned N (k - 1)) :
    (r.rangeStart N (k - N) (k - 1) (r.searchLeft k N short tp) tp).1 =
        (r.rangeStart N (k - N) (k - 1) ((k - N : Nat) : Int) tp).1 ↔
      tp ≤ r.timeAtUnsigned N (k - N) ∨ r.Passes k N (r.searchLeft k N short tp) tp := by
  have bounds := searchLeft_bounds (r := r) w nonneg reach tp
  have blocks := w.blocks
  rw [rangeStart_fst w, rangeStart_fst w]
  split
  · next oldest => simp [oldest]
  next newer =>
  have start := UInt64.not_le.1 newer
  have ordered := increasing.inOrder
  have oldest :=
    increasing.firstFrom w (ordered.covers_oldest w tp) (Int.natCast_nonneg _) start finish
  simp only [newer, false_or]
  constructor
  · intro same
    by_contra stuck
    have front := searchStart_front w bounds.1 stuck (k - 1)
    rw [same] at front
    exact absurd oldest.retained.1 (Nat.not_le.2 front)
  · intro passes
    have covers := ordered.covers_searchLeft w passes bounds.2
    exact (increasing.firstFrom w covers bounds.1 start finish).unique oldest

end MdHeadPlus

namespace ShmMdPlus

/-- `get_md` without its shortcut: both searches start at the oldest update. -/
def getMdFromOldest (s : ShmMdPlus α) (instrument : Name) (startTp endTp : UInt64) : MdRet :=
  if endTp < startTp then {}
  else
    match s.mInstrumentsAddress.lookup (comHash instrument) with
    | none => {}
    | some index =>
      let record := s.shm.record index
      let last := record.lastIndex
      let first := record.firstIndex s.mdBlockNum
      if record.timeAtUnsigned s.mdBlockNum last < startTp ∨
          endTp < record.timeAtUnsigned s.mdBlockNum first then {}
      else
        let foundEnd := record.rangeEnd s.mdBlockNum last (asInt64 first) endTp
        let foundStart := record.rangeStart s.mdBlockNum first last (asInt64 first) startTp
        { ret := true
          buffLen := (s.mdBlockNum % 4294967296).toNat
          endIndex := foundEnd.1
          endNTime := foundEnd.2.toUInt32
          startIndex := foundStart.1
          startNTime := foundStart.2.toUInt32
          dat := some index }

/-- Two answers with the same range. -/
structure SameRange (a b : MdRet) : Prop where
  ret : a.ret = b.ret
  startIndex : a.startIndex = b.startIndex
  endIndex : a.endIndex = b.endIndex

variable {s : ShmMdPlus α} {instrument : Name} {i k N : Nat}

/-- The shortcut does not change the answer under the condition of `ShortcutAgrees`. -/
theorem getMd_sameRange_iff (found : s.mInstrumentsAddress.lookup (comHash instrument) = some i)
    (blockNum : s.mdBlockNum = N) (blocks : 1 ≤ N) (blocks' : N < 2147483648)
    (index : (s.shm.record i).currentIndex = k) (pos : 1 ≤ k) (size : k ≤ 4611686018427387904)
    (increasing : (s.shm.record i).Increasing k N) {startTp endTp offsetSec : UInt64}
    (le : startTp ≤ endTp) (bound : offsetSec.toNat ≤ 1099511627776) :
    SameRange (s.getMd instrument startTp endTp offsetSec)
        (s.getMdFromOldest instrument startTp endTp) ↔
      (s.shm.record i).ShortcutAgrees k N (startShort (k - 1) offsetSec) startTp endTp := by
  have w : Counted k N := ⟨blocks, blocks', pos, size⟩
  have last := MdHeadPlus.lastIndex_eq index pos size
  have first := MdHeadPlus.firstIndex_eq index blocks blocks' size
  have oldest : asInt64 ((k - N : Nat) : Int) = ((k - N : Nat) : Int) :=
    asInt64_of_mem (by omega) (by omega)
  have size' : k - 1 < 9223372036854775807 := by omega
  obtain ⟨nonneg, reach⟩ := startShort_bounds size'
    (show offsetSec.toNat + 2 < 2305843009213693952 by omega)
  rw [getMd, getMdFromOldest, found, if_neg (UInt64.not_lt.2 le), if_neg (UInt64.not_lt.2 le)]
  simp only [blockNum, last, first, oldest]
  generalize s.shm.record i = r at increasing
  split
  · next outside =>
      exact iff_of_true ⟨rfl, rfl, rfl⟩ (outside.elim .inl fun after => .inr (.inl after))
  · next inside =>
      rw [not_or, UInt64.not_lt, UInt64.not_lt] at inside
      have sameEnd := MdHeadPlus.rangeEnd_same_iff increasing w nonneg reach inside.2
      have sameStart := MdHeadPlus.rangeStart_same_iff increasing w nonneg reach inside.1
      constructor
      · rintro ⟨-, same, same'⟩
        exact .inr (.inr ⟨sameEnd.1 same', sameStart.1 same⟩)
      · rintro (before | after | ⟨agrees, agrees'⟩)
        · exact absurd inside.1 (UInt64.not_le.2 before)
        · exact absurd inside.2 (UInt64.not_le.2 after)
        · exact ⟨rfl, sameStart.2 agrees', sameEnd.2 agrees⟩

/-- In particular where no search starts below the retained window. -/
theorem getMd_sameRange (found : s.mInstrumentsAddress.lookup (comHash instrument) = some i)
    (blockNum : s.mdBlockNum = N) (blocks : 1 ≤ N) (blocks' : N < 2147483648)
    (index : (s.shm.record i).currentIndex = k) (pos : 1 ≤ k) (size : k ≤ 4611686018427387904)
    (increasing : (s.shm.record i).Increasing k N) {startTp endTp offsetSec : UInt64}
    (le : startTp ≤ endTp) (bound : offsetSec.toNat ≤ 1099511627776)
    (stays : StaysInWindow (s.shm.record i) N startTp endTp offsetSec) :
    SameRange (s.getMd instrument startTp endTp offsetSec)
      (s.getMdFromOldest instrument startTp endTp) := by
  rw [getMd_sameRange_iff found blockNum blocks blocks' index pos size increasing le bound]
  rw [StaysInWindow, MdHeadPlus.lastIndex_eq index pos size,
    MdHeadPlus.firstIndex_eq index blocks blocks' size] at stays
  obtain reversed | before | after | searches := stays
  · exact absurd le (UInt64.not_le.2 reversed)
  · exact .inl before
  · exact .inr (.inl after)
  obtain ⟨fromEnd, fromStart⟩ := searches
  rw [MdHeadPlus.lastIndex_eq index pos size, MdHeadPlus.firstIndex_eq index blocks blocks' size]
    at fromEnd fromStart
  have passes (tp : UInt64)
      (retained : tp ≤ (s.shm.record i).timeAt N (startShort (k - 1 : Nat) offsetSec) ∨
        ((k - N : Nat) : Int) ≤ startShort (k - 1 : Nat) offsetSec) :
      (s.shm.record i).Passes k N
        ((s.shm.record i).searchLeft k N (startShort (k - 1) offsetSec) tp) tp := by
    refine MdHeadPlus.passes_of_low ?_ tp
    obtain notEarlier | inside := retained
    · rw [MdHeadPlus.searchLeft, if_pos notEarlier]
    · exact MdHeadPlus.searchLeft_low inside
  exact .inr (.inr ⟨fromEnd.imp_right (passes endTp), fromStart.imp_right (passes startTp)⟩)

theorem tenth_increasing : (tenth.shm.record 0).Increasing 10 3 := by
  intro i j retained retained' less
  rw [tenth_times i retained, tenth_times j retained']
  obtain ⟨-, high⟩ := retained
  obtain ⟨-, high'⟩ := retained'
  exact (UInt64.ofNat_lt_iff_lt (by rw [UInt64.size]; omega) (by rw [UInt64.size]; omega)).2
    (by omega)

/-- The slot of the shortcut holds the time 8, so that the search for it starts at the oldest
update. -/
theorem getMd_sameRange_tenth :
    SameRange (tenth.getMd [65] 8 8 0) (tenth.getMdFromOldest [65] 8 8) := by
  have oldest : (8 : UInt64) ≤ (tenth.shm.record 0).timeAtUnsigned (3 : Nat)
    ((tenth.shm.record 0).firstIndex (3 : Nat)) := by decide +kernel
  have notEarlier : (8 : UInt64) ≤ (tenth.shm.record 0).timeAt (3 : Nat)
    (startShort (tenth.shm.record 0).lastIndex 0) := by decide +kernel
  exact getMd_sameRange (k := 10) (by decide +kernel) (by decide +kernel) (by decide) (by decide)
    (by decide +kernel) (by decide) (by decide) tenth_increasing (by decide) (by decide)
    (.inr (.inr (.inr ⟨.inr (.inl notEarlier), .inl oldest⟩)))

/-- With the shortcut the range from 8 to 9 ends at an index that is not retained. -/
theorem shortcut_changes_answer :
    (tenth.shm.record 0).Increasing 10 3 ∧
      (tenth.getMd [65] 8 9 0).endIndex = 5 ∧ (tenth.getMdFromOldest [65] 8 9).endIndex = 8 ∧
      ¬SameRange (tenth.getMd [65] 8 9 0) (tenth.getMdFromOldest [65] 8 9) := by
  have short : (tenth.getMd [65] 8 9 0).endIndex = 5 := by decide +kernel
  have oldest : (tenth.getMdFromOldest [65] 8 9).endIndex = 8 := by decide +kernel
  refine ⟨tenth_increasing, short, oldest, fun same => ?_⟩
  have ends := same.endIndex
  rw [short, oldest] at ends
  exact absurd ends (by decide)

end ShmMdPlus

end RazorCrypto.Shm
