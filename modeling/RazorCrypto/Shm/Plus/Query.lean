import RazorCrypto.Shm.Plus.Store

/-!
# Range queries over the retained updates

`get_md_all`, `get_md_by_tp` and `get_md` describe a range of a record's updates by their
indices. They read the counter of the record once, compute the ends of the window in
unsigned arithmetic, and search it by time. The overloads of `get_md` that take no
`offset_sec` only compute arguments for the one that is modelled. The sum `left + right` is
taken without a bound. It fits into 64 bits up to 2^62 updates, and the results about searches
assume that there are no more.
-/

universe u

namespace RazorCrypto.Shm

open MachineInt

/-- Market data with a time, which is zero in zeroed memory. -/
class TimedMarketData (α : Type u) extends MarketData α where
  nTimeMill : α → UInt64
  nTimeMill_zero : nTimeMill 0 = 0

instance : TimedMarketData UInt64 where
  nTimeMill := id
  nTimeMill_zero := rfl

/-- `md_ret`. The pointer `dat` is given by the position of its record. -/
structure MdRet where
  ret : Bool := false
  buffLen : Nat := 0
  startNTime : UInt32 := 0
  endNTime : UInt32 := 0
  startIndex : Nat := 0
  endIndex : Nat := 0
  dat : Option Nat := none
  deriving DecidableEq

/-- The midpoint lies between the ends, except that below zero it may be the right one. -/
theorem midpoint {left right : Int} (lt : left < right) :
    left ≤ Int.tdiv (left + right) 2 ∧
      (1 ≤ Int.tdiv (left + right) 2 → Int.tdiv (left + right) 2 < right) := by
  rcases Int.le_total 0 (left + right) with nonneg | nonpos
  · rw [Int.tdiv_eq_ediv_of_nonneg nonneg]
    omega
  · have upward : Int.tdiv (left + right) 2 = -(-(left + right) / 2) := by
      rw [← Int.tdiv_eq_ediv_of_nonneg (by omega), Int.neg_tdiv, Int.neg_neg]
    rw [upward]
    omega

/-- The search loop of the range queries, with the final value of `right`. -/
def searchLoop (time : Int → UInt64) (tp : UInt64) (left right : Int) : Int :=
  if left < right then
    let mid := Int.tdiv (left + right) 2
    if time mid = tp then mid
    else if tp < time mid then
      if mid - 1 < 0 then mid else searchLoop time tp left (mid - 1)
    else searchLoop time tp (mid + 1) right
  else right
termination_by (right - left).toNat
decreasing_by
  all_goals
    have between := midpoint ‹left < right›
    omega

/-- `start_short`: the index from which a search over `offset_sec` seconds is tried. -/
def startShort (last : Nat) (offsetSec : UInt64) : Int :=
  let start := asInt64 (asInt64 last - 4 * (asInt64 offsetSec.toNat + 2))
  if start < 0 then 0 else start

variable {α : Type u} [TimedMarketData α]

namespace MdHeadPlus

omit [TimedMarketData α] in
/-- `end`: the newest index, which wraps if there is none. -/
def lastIndex (r : MdHeadPlus α) : Nat := asUInt64 (r.currentIndex - 1)

omit [TimedMarketData α] in
/-- `start`: the oldest index that is still in a slot. -/
def firstIndex (r : MdHeadPlus α) (blockNum : Int) : Nat :=
  let count := asUInt64 (r.lastIndex + 1)
  if asUInt64 blockNum ≤ count then count - asUInt64 blockNum else 0

/-- The time in the slot of a signed index. -/
def timeAt (r : MdHeadPlus α) (blockNum : Int) (index : Int) : UInt64 :=
  TimedMarketData.nTimeMill (r.dat (Int.tmod index blockNum).toNat)

/-- The time in the slot of an unsigned index. -/
def timeAtUnsigned (r : MdHeadPlus α) (blockNum : Int) (index : Nat) : UInt64 :=
  TimedMarketData.nTimeMill (r.dat (index % asUInt64 blockNum))

/-- The search for the last update not after `tp`. -/
def searchEnd (r : MdHeadPlus α) (blockNum : Int) (tp : UInt64) (left right : Int) : Int :=
  let right := searchLoop (r.timeAt blockNum) tp left right
  if tp < r.timeAt blockNum right ∧ 1 ≤ right then right - 1 else right

/-- The search for the first update not before `tp`, at most `last`. -/
def searchStart (r : MdHeadPlus α) (blockNum : Int) (tp : UInt64) (left right : Int)
    (last : Nat) : Int :=
  let right := searchLoop (r.timeAt blockNum) tp left right
  if r.timeAt blockNum right < tp ∧ asUInt64 right < last then right + 1 else right

/-- The end of a range: the newest update, or a search from `left`. -/
def rangeEnd (r : MdHeadPlus α) (blockNum : Int) (last : Nat) (left : Int) (endTp : UInt64) :
    Nat × UInt64 :=
  let lastTime := r.timeAtUnsigned blockNum last
  if lastTime ≤ endTp then (last, lastTime)
  else
    let right := r.searchEnd blockNum endTp left (asInt64 last)
    (asUInt64 right, r.timeAt blockNum right)

/-- The start of a range: the oldest update, or a search from `left`. -/
def rangeStart (r : MdHeadPlus α) (blockNum : Int) (first last : Nat) (left : Int)
    (startTp : UInt64) : Nat × UInt64 :=
  let firstTime := r.timeAtUnsigned blockNum first
  if startTp ≤ firstTime then (first, firstTime)
  else
    let right := r.searchStart blockNum startTp left (asInt64 last) last
    (asUInt64 right, r.timeAt blockNum right)

end MdHeadPlus

namespace ShmMdPlus

/-- `get_md_all`. -/
def getMdAll (s : ShmMdPlus α) (instrument : Name) : MdRet :=
  match s.mInstrumentsAddress.lookup (comHash instrument) with
  | none => {}
  | some index =>
    let record := s.shm.record index
    let last := record.lastIndex
    let first := record.firstIndex s.mdBlockNum
    { ret := true
      buffLen := (s.mdBlockNum % 4294967296).toNat
      startIndex := first
      endIndex := last
      endNTime := (record.timeAtUnsigned s.mdBlockNum last).toUInt32
      startNTime := (record.timeAtUnsigned s.mdBlockNum first).toUInt32
      dat := some index }

/-- `get_md_by_tp`: the last update not after `endTp`. -/
def getMdByTp (s : ShmMdPlus α) (instrument : Name) (endTp : UInt64) : MdRet :=
  match s.mInstrumentsAddress.lookup (comHash instrument) with
  | none => {}
  | some index =>
    let record := s.shm.record index
    let last := record.lastIndex
    let first := record.firstIndex s.mdBlockNum
    if endTp < record.timeAtUnsigned s.mdBlockNum first then {}
    else
      let found := record.rangeEnd s.mdBlockNum last (asInt64 first) endTp
      { ret := true
        buffLen := (s.mdBlockNum % 4294967296).toNat
        endIndex := found.1
        endNTime := found.2.toUInt32
        startIndex := found.1
        startNTime := found.2.toUInt32
        dat := some index }

/-- `get_md` with all arguments: the updates from `startTp` to `endTp`. A search starts
from the shortcut if the time there is before the one it looks for. -/
def getMd (s : ShmMdPlus α) (instrument : Name) (startTp endTp offsetSec : UInt64) : MdRet :=
  if endTp < startTp then {}
  else
    match s.mInstrumentsAddress.lookup (comHash instrument) with
    | none => {}
    | some index =>
      let record := s.shm.record index
      let last := record.lastIndex
      let first := record.firstIndex s.mdBlockNum
      let short := startShort last offsetSec
      let shortTime := record.timeAt s.mdBlockNum short
      if record.timeAtUnsigned s.mdBlockNum last < startTp ∨
          endTp < record.timeAtUnsigned s.mdBlockNum first then {}
      else
        let foundEnd := record.rangeEnd s.mdBlockNum last
          (if endTp ≤ shortTime then asInt64 first else short) endTp
        let foundStart := record.rangeStart s.mdBlockNum first last
          (if startTp ≤ shortTime then asInt64 first else short) startTp
        { ret := true
          buffLen := (s.mdBlockNum % 4294967296).toNat
          endIndex := foundEnd.1
          endNTime := foundEnd.2.toUInt32
          startIndex := foundStart.1
          startNTime := foundStart.2.toUInt32
          dat := some index }

end ShmMdPlus
end RazorCrypto.Shm
