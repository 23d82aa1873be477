import RazorCrypto.Foundation.MachineInt
import RazorCrypto.Shm.AddressMap
import RazorCrypto.Shm.Name

/-!
# The shared-memory store `shm_md_plus`

A region of shared memory holds a header and then records of equal size, one for each
instrument and each with a ring of `MD_BLOCK_NUM` slots for its market data. A record
is given by its position: the code walks from one to the next by `get_next_md_head`,
so that record `i` starts `headOffset i` bytes into the region. The region is a total
function of positions, because nothing in the code keeps a position inside the memory
it allocated. An object of the class keeps, beside the region it points to, private
counters and the address map.

`market_data` is a template parameter: a type with the value of zeroed memory and a
size. `update_time` of a record and the dump callback are not modelled, since no
operation reads them. The 64-bit counters `current_index` and `update_num` grow by
one for each accepted update and are taken as unbounded.
-/

universe u

namespace RazorCrypto.Shm

open MachineInt

/-- What the stores need of `market_data`: its value in zeroed memory and its size. -/
class MarketData (α : Type u) extends Zero α where
  size : Nat

/-- The smallest market data: a single 64-bit word. -/
instance : MarketData UInt64 where
  zero := 0
  size := 8

/-- `md_shm_head_plus`. -/
structure MdShmHeadPlus where
  updateNum : Nat
  mdNum : Nat
  mdBuffNum : Nat
  deriving DecidableEq

/-- `md_head_plus`, without `update_time`. -/
structure MdHeadPlus (α : Type u) where
  currentIndex : Int
  instrumentId : Name
  bufferLen : Int
  dat : Nat → α

/-- Shared memory: the header and the records by position. -/
structure Region (α : Type u) where
  head : MdShmHeadPlus
  record : Nat → MdHeadPlus α

/-- An object of class `shm_md_plus`. `mShmHead` says whether `m_shm_head` points to
the region; `mNextEmptyMd` is a position. -/
structure ShmMdPlus (α : Type u) where
  mShmHead : Bool
  shm : Region α
  mNextEmptyMd : Nat
  mMaxInstrumentNum : Int
  mMdNum : Int
  mShmSize : Nat
  mdBlockNum : Int
  mInstrumentsAddress : AddressMap

variable {α : Type u} [MarketData α]

/-! ## Records -/

namespace MdHeadPlus

/-- A record of zeroed memory. -/
def zeroed : MdHeadPlus α :=
  { currentIndex := 0, instrumentId := List.replicate 16 0, bufferLen := 0, dat := fun _ => 0 }

/-- A record cleared and labelled by `init_instrument_shm`. -/
def labelled (instrument : Name) (blockNum : Int) : MdHeadPlus α :=
  { (zeroed : MdHeadPlus α) with
    instrumentId := strncpy (List.replicate 16 0) instrument 15
    bufferLen := blockNum }

/-- The record when `current_index` is `index`. -/
def atIndex (r : MdHeadPlus α) (index : Nat) : MdHeadPlus α := { r with currentIndex := index }

omit [MarketData α] in
/-- The slot `on_rtn_data` reads for the callback and writes:
`current_index % MD_BLOCK_NUM`. An end marker, whose index is `-1`, leads the code to `dat[-1]`, and
without slots the code divides by zero; here the slot is then 0, or the index. -/
def nextOffset (r : MdHeadPlus α) (blockNum : Int) : Nat :=
  (Int.tmod r.currentIndex blockNum).toNat

/-- The slot of `get_cur_md`: `(current_index - 1) % MD_BLOCK_NUM`, at least zero. -/
def curOffset (r : MdHeadPlus α) (blockNum : Int) : Nat :=
  let offset := Int.tmod (r.currentIndex - 1) blockNum
  if offset < 0 then 0 else offset.toNat

/-- `md_head_plus::get_cur`: the slot its result points to. -/
def getCur (r : MdHeadPlus α) : Option Nat :=
  if 1 ≤ r.currentIndex then some (Int.tmod (r.currentIndex - 1) r.bufferLen).toNat else none

/-- `get_cur_md` of a record: the value its result points to. -/
def getCurMd (r : MdHeadPlus α) (blockNum : Int) : α := r.dat (r.curOffset blockNum)

/-- An accepted update: the data goes to the next slot, then `current_index` grows. -/
def store (r : MdHeadPlus α) (blockNum : Int) (newData : α) : MdHeadPlus α :=
  { r with
    dat := Function.update r.dat (r.nextOffset blockNum) newData
    currentIndex := r.currentIndex + 1 }

/-- The name a reader makes of `instrument_id`: `std::string(index->instrument_id)`. -/
def name (r : MdHeadPlus α) : Name := cStr r.instrumentId

end MdHeadPlus

/-- Zeroed memory. -/
def Region.zeroed : Region α := ⟨⟨0, 0, 0⟩, fun _ => MdHeadPlus.zeroed⟩

/-! ## Layout -/

/-- `sizeof(md_shm_head_plus)`. -/
def sizeofMdShmHeadPlus : Nat := 16

/-- `sizeof(md_head_plus)` for market data aligned to eight bytes. -/
def sizeofMdHeadPlus : Nat := 40

namespace ShmMdPlus

/-- The size of one record: its header and `MD_BLOCK_NUM` slots. -/
def stride (s : ShmMdPlus α) : Nat :=
  sizeofMdHeadPlus + MarketData.size α * asUInt64 s.mdBlockNum

/-- The byte offset at which record `i` starts. -/
def headOffset (s : ShmMdPlus α) (i : Nat) : Nat := sizeofMdShmHeadPlus + i * s.stride

/-- Record `i` lies in the `m_shm_size` bytes of the region. -/
def Fits (s : ShmMdPlus α) (i : Nat) : Prop := s.headOffset (i + 1) ≤ s.mShmSize

instance (s : ShmMdPlus α) (i : Nat) : Decidable (s.Fits i) :=
  inferInstanceAs (Decidable (_ ≤ _))

/-- `memset` to zero over the `m_shm_size` bytes of the region. -/
def zeroShm (s : ShmMdPlus α) : ShmMdPlus α :=
  { s with shm :=
    { head := ⟨0, 0, 0⟩
      record := fun i => if s.Fits i then MdHeadPlus.zeroed else s.shm.record i } }

/-! ## Creation -/

/-- The default constructor. The pointers and `MD_BLOCK_NUM` are unset in the source. -/
def new (page : Region α) : ShmMdPlus α :=
  { mShmHead := false, shm := page, mNextEmptyMd := 0, mMaxInstrumentNum := 0, mMdNum := 0,
    mShmSize := 0, mdBlockNum := 0, mInstrumentsAddress := ∅ }

/-- `create_shm_ptr`, with the memory that `load_page_buffer` returns. -/
def createShmPtr (s : ShmMdPlus α) (page : Region α) (maxInstrumentNum mdBuffNum : Nat) :
    ShmMdPlus α :=
  if s.mShmHead then s
  else
    let s := { s with mdBlockNum := asInt32 mdBuffNum, shm := page }
    let s := { s with
      mShmSize := (maxInstrumentNum * s.stride + sizeofMdShmHeadPlus) % 2 ^ 64
      mMaxInstrumentNum := asInt32 maxInstrumentNum }
    let s := { s.zeroShm with mShmHead := true }
    { s with shm := { s.shm with head := { s.shm.head with mdBuffNum := mdBuffNum } } }

/-- `init_instrument_shm`: enter the name in the address map unless its hash is there,
clear the record, label it and count it. -/
def initInstrumentShm (s : ShmMdPlus α) (head : Nat) (instrument : Name) : ShmMdPlus α :=
  { s with
    mInstrumentsAddress := s.mInstrumentsAddress.insertNew (comHash instrument) head
    shm :=
      { head := { s.shm.head with mdNum := s.shm.head.mdNum + 1 }
        record := Function.update s.shm.record head
          (MdHeadPlus.labelled instrument s.mdBlockNum) } }

/-- The end-marker loop of `init_shm` for its remaining iterations. -/
def markTail (record : Nat → MdHeadPlus α) (tail : Nat) : Nat → Nat → MdHeadPlus α
  | 0 => record
  | n + 1 =>
    markTail (Function.update record tail { record tail with currentIndex := -1 }) (tail + 1) n

/-- One iteration of the first loop of `init_shm`. -/
def initNext (s : ShmMdPlus α) (instrument : Name) : ShmMdPlus α :=
  let s := s.initInstrumentShm s.mNextEmptyMd instrument
  { s with mNextEmptyMd := s.mNextEmptyMd + 1 }

/-- `left` in `init_shm`: `m_max_instrument_num - instruments.size()` as an `int`. -/
def initLeft (s : ShmMdPlus α) (instruments : List Name) : Int :=
  asInt32 (s.mMaxInstrumentNum - instruments.length)

/-- `init_shm`: one record for each instrument, then `left + 1` end markers. -/
def initShm (s : ShmMdPlus α) (instruments : List Name) : ShmMdPlus α :=
  let left := s.initLeft instruments
  let s := instruments.foldl initNext s
  { s with shm :=
    { s.shm with record := markTail s.shm.record s.mNextEmptyMd (left + 1).toNat } }

/-- `set_shm_addr`. -/
def setShmAddr (s : ShmMdPlus α) (instruments : List Name) (writePid : Bool) : ShmMdPlus α :=
  let s := { s with mShmHead := true, mNextEmptyMd := 0 }
  if writePid then
    let s := { s with
      shm := { s.shm with head := { s.shm.head with mdNum := 0 } }
      mMdNum := asInt32 (s.mMdNum + instruments.length) }
    let s := s.initShm instruments
    { s with shm := { s.shm with head := { s.shm.head with updateNum := 0 } } }
  else s

/-- `re_init_shm`. -/
def reInitShm (s : ShmMdPlus α) (instruments : List Name) : ShmMdPlus α :=
  let buffLen := s.shm.head.mdBuffNum
  let s := { s.zeroShm with mNextEmptyMd := 0, mMdNum := asInt32 instruments.length }
  let s := s.initShm instruments
  { s with shm :=
    { s.shm with head := { s.shm.head with updateNum := 0, mdBuffNum := buffLen } } }

/-! ## Updates and lookups -/

/-- An update of record `index` that `on_rtn_data` accepts. -/
def acceptUpdate (s : ShmMdPlus α) (index : Nat) (newData : α) : ShmMdPlus α :=
  { s with shm :=
    { head := { s.shm.head with updateNum := s.shm.head.updateNum + 1 }
      record := Function.update s.shm.record index
        ((s.shm.record index).store s.mdBlockNum newData) } }

/-- The part of `on_rtn_data` after the record of the instrument is found. The callback
sees the slot that is about to be written. -/
def offerUpdate (s : ShmMdPlus α) (index : Nat) (newData : α)
    (compare : Option (α → α → Bool)) : ShmMdPlus α × Bool :=
  let record := s.shm.record index
  let updated := match compare with
    | some compare => compare (record.dat (record.nextOffset s.mdBlockNum)) newData
    | none => true
  if updated then (s.acceptUpdate index newData, true) else (s, false)

/-- The dynamic registration of `on_rtn_data`, once there is room for it. -/
def registerInstrument (s : ShmMdPlus α) (id : Name) : ShmMdPlus α :=
  { s.initNext id with mMdNum := asInt32 (s.mMdNum + 1) }

/-- `on_rtn_data`, with `instrumentID` the bytes the pointer leads to. -/
def onRtnData (s : ShmMdPlus α) (instrumentID : Name) (newData : α)
    (compare : Option (α → α → Bool)) : ShmMdPlus α × Bool :=
  if s.mShmHead = false then (s, false)
  else
    let securityNo := comHash (cStr instrumentID)
    match s.mInstrumentsAddress.lookup securityNo with
    | some index => s.offerUpdate index newData compare
    | none =>
      if s.mMdNum < s.mMaxInstrumentNum - 1 then
        let s := s.registerInstrument (cStr instrumentID)
        match s.mInstrumentsAddress.lookup securityNo with
        | some index => s.offerUpdate index newData compare
        | none => (s, false)
      else (s, false)

/-- `sub_md`. -/
def subMd (s : ShmMdPlus α) (instrumentID : Name) : Option Nat :=
  if s.mShmHead = false then none
  else s.mInstrumentsAddress.lookup (comHash (cStr instrumentID))

/-- `get_cur_md` by name: the value its result points to. -/
def getCurMd (s : ShmMdPlus α) (instrument : Name) : Option α :=
  (s.mInstrumentsAddress.lookup (comHash instrument)).map fun index =>
    (s.shm.record index).getCurMd s.mdBlockNum

/-- `get_update_num`. -/
def getUpdateNum (s : ShmMdPlus α) (instrument : Name) : Int :=
  match s.mInstrumentsAddress.lookup (comHash instrument) with
  | some index => (s.shm.record index).currentIndex
  | none => 0

end ShmMdPlus
end RazorCrypto.Shm
