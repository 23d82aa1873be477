import RazorCrypto.Foundation.MachineInt
import RazorCrypto.Shm.AddressMap
import RazorCrypto.Shm.Tick.Record

/-!
# The shared-memory store `shm_md_tick`

The older store keeps a header and then records of equal size in shared memory. A record is
given by its position. As in the newer store, the region is a total function of positions, of
which the first `m_max_md_num` are the memory that was allocated: the others keep what was
there before.

`init_shm` assigns `m_instruments_address[security_no] = head`, so that the last record of a
name is the one that is found. Behind the records of the instruments it marks the free ones,
and only these: a store that is full has no marker.
-/

universe u

namespace RazorCrypto.Shm

open MachineInt

variable {α : Type u}

/-- `md_shm_head`. -/
structure MdShmHead where
  updateNum : Nat
  status : Nat
  mdNum : Nat

/-- Shared memory: the header and the records by position. -/
structure TickRegion (α : Type u) where
  head : MdShmHead
  record : Nat → MdHead α

/-- An object of class `shm_md_tick`. `mShmHead` says whether `m_shm_head` points to the
region; `mNextEmptyMd` is a position. -/
structure ShmMdTick (α : Type u) where
  mShmHead : Bool
  shm : TickRegion α
  mNextEmptyMd : Nat
  mMaxMdNum : Int
  mMdNum : Int
  mInstrumentsAddress : AddressMap
  mMdDumpFun : Option (α → α → α)

namespace MdHead

variable [Zero α]

/-- A record of zeroed memory. -/
def zeroed : MdHead α :=
  { currentIndex := 0, instrumentId := List.replicate 32 0, dat := fun _ => 0 }

/-- A record cleared and labelled by `init_instrument_shm`. -/
def labelled (instrument : Name) : MdHead α :=
  { (zeroed : MdHead α) with instrumentId := strncpy (List.replicate 32 0) instrument 31 }

omit [Zero α] in
/-- The name a reader makes of `instrument_id`: `std::string(index->instrument_id)`. -/
def name (r : MdHead α) : Name := cStr r.instrumentId

end MdHead

/-- What a record keeps of a name: its C string, cut to the 31 bytes that fit in
`instrument_id`. -/
def tickLabel (s : Name) : Name := (cStr s).take 31

namespace ShmMdTick

/-- The default constructor, with a function for `set_md_dump_func`. -/
def new (page : TickRegion α) (dump : Option (α → α → α)) : ShmMdTick α :=
  { mShmHead := false, shm := page, mNextEmptyMd := 0, mMaxMdNum := 0, mMdNum := 0,
    mInstrumentsAddress := ∅, mMdDumpFun := dump }

/-- The arguments of a call of `on_rtn_data`. -/
structure Call (α : Type u) where
  instrumentID : Name
  newData : α
  compare : Option (α → α → Bool)

section Writing

variable [Zero α]

/-- `create_shm_ptr`, with the memory that `load_page_buffer` returns: the `md_num` records of
the region are cleared. -/
def createShmPtr (s : ShmMdTick α) (page : TickRegion α) (mdNum : Nat) : ShmMdTick α :=
  if s.mShmHead then s
  else
    { s with
      mMaxMdNum := mdNum
      shm :=
        { head := ⟨0, 0, 0⟩
          record := fun i => if i < mdNum then MdHead.zeroed else page.record i } }

/-- `init_instrument_shm`: enter the name in the address map, clear the record, label it and
count it. -/
def initInstrumentShm (s : ShmMdTick α) (head : Nat) (instrument : Name) : ShmMdTick α :=
  { s with
    mInstrumentsAddress := s.mInstrumentsAddress.insert (comHash instrument) head
    shm :=
      { head := { s.shm.head with mdNum := s.shm.head.mdNum + 1 }
        record := Function.update s.shm.record head (MdHead.labelled instrument) } }

/-- `init_instrument_shm` at `m_next_empty_md`, which moves to the next record. -/
def initNext (s : ShmMdTick α) (instrument : Name) : ShmMdTick α :=
  let s := s.initInstrumentShm s.mNextEmptyMd instrument
  { s with mNextEmptyMd := s.mNextEmptyMd + 1 }

omit [Zero α] in
/-- The end-marker loop of `init_shm` for its remaining iterations. -/
def markTail (record : Nat → MdHead α) (tail : Nat) : Nat → Nat → MdHead α
  | 0 => record
  | left + 1 =>
    markTail (Function.update record tail { record tail with currentIndex := -1 }) (tail + 1) left

/-- `init_shm`: one record for each instrument, then `left` end markers. -/
def initShm (s : ShmMdTick α) (instruments : List Name) : ShmMdTick α :=
  let left := asInt32 (s.mMaxMdNum - instruments.length)
  let s := instruments.foldl initNext s
  { s with shm := { s.shm with record := markTail s.shm.record s.mNextEmptyMd left.toNat } }

/-- `set_shm_addr`. -/
def setShmAddr (s : ShmMdTick α) (instruments : List Name) (writePid : Bool) : ShmMdTick α :=
  let s := { s with mShmHead := true, mNextEmptyMd := 0 }
  if writePid then
    let s := { s with
      shm := { s.shm with head := { s.shm.head with mdNum := 0 } }
      mMdNum := asInt32 (s.mMdNum + instruments.length) }
    let s := s.initShm instruments
    { s with shm := { s.shm with head := { s.shm.head with updateNum := 0, status := 0 } } }
  else s

omit [Zero α] in
/-- An update of record `index` that `on_rtn_data` accepts. A dump function makes the new
content of a slot from the old one. -/
def acceptUpdate (s : ShmMdTick α) (index : Nat) (newData : α) : ShmMdTick α :=
  let record := s.shm.record index
  let data := match s.mMdDumpFun with
    | some dump => dump (record.dat record.nextOffset) newData
    | none => newData
  { s with shm :=
    { head := { s.shm.head with updateNum := s.shm.head.updateNum + 1 }
      record := Function.update s.shm.record index (record.store data) } }

omit [Zero α] in
/-- The part of `on_rtn_data` after the record of the instrument is found. The callback sees
the current slot. -/
def offerUpdate (s : ShmMdTick α) (index : Nat) (newData : α)
    (compare : Option (α → α → Bool)) : ShmMdTick α × Bool :=
  let record := s.shm.record index
  let updated := match compare with
    | some compare => compare (record.dat record.curOffset) newData
    | none => true
  if updated then (s.acceptUpdate index newData, true) else (s, false)

/-- `on_rtn_data`, with `instrumentID` the bytes the pointer leads to. -/
def onRtnData (s : ShmMdTick α) (instrumentID : Name) (newData : α)
    (compare : Option (α → α → Bool)) : ShmMdTick α × Bool :=
  if s.mShmHead = false then (s, false)
  else
    let securityNo := comHash (cStr instrumentID)
    match s.mInstrumentsAddress.lookup securityNo with
    | some index => s.offerUpdate index newData compare
    | none =>
      if s.mMdNum < s.mMaxMdNum then
        let s := s.initNext (cStr instrumentID)
        let s := { s with mMdNum := asInt32 (s.mMdNum + 1) }
        match s.mInstrumentsAddress.lookup securityNo with
        | some index => s.offerUpdate index newData compare
        | none => (s, false)
      else (s, false)

/-- The store after some calls of `on_rtn_data`. -/
def run (s : ShmMdTick α) (calls : List (Call α)) : ShmMdTick α :=
  calls.foldl (fun s call => (s.onRtnData call.instrumentID call.newData call.compare).1) s

/-- A new store of `M` records, initialised with a list of instruments. -/
def start (page : TickRegion α) (M : Nat) (instruments : List Name)
    (dump : Option (α → α → α)) : ShmMdTick α :=
  ((new page dump).createShmPtr page M).setShmAddr instruments true

end Writing

/-! ## Reading -/

/-- The loop of `get_shm` that moves `m_next_empty_md` to the first record that is not live,
with the number of records that are left. Behind them the region ends. -/
def scanEnd (record : Nat → MdHead α) : Nat → Nat → Option Nat
  | 0, _ => none
  | left + 1, i => if 0 ≤ (record i).currentIndex then scanEnd record left (i + 1) else some i

/-- `load_instruments_addresses`. -/
def loadInstrumentsAddresses (s : ShmMdTick α) : ShmMdTick α :=
  let enter := fun (map : AddressMap) index =>
    map.insert (comHash (s.shm.record index).name) index
  { s with mInstrumentsAddress := (List.range s.mNextEmptyMd).foldl enter s.mInstrumentsAddress }

/-- `get_shm` on an existing region of `M` records, if its scan stops inside the region. -/
def getShm (s : ShmMdTick α) (shm : TickRegion α) (M : Nat) : Option (ShmMdTick α) :=
  (scanEnd shm.record M 0).map fun next =>
    { s with mShmHead := true, shm := shm, mNextEmptyMd := next }.loadInstrumentsAddresses

end ShmMdTick
end RazorCrypto.Shm
