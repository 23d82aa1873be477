import RazorCrypto.Shm.Plus.Relabel

/-!
# The operations of a store, field by field

Another process sees the shared memory between any two stores of the writer. Each operation
is therefore also given as the list of the fields it stores, in the order of the code, and
executing the list is shown to have the effect of the operation on the shared memory. A
`memset` stores the fields in the order of their addresses. What no reader looks at is stored
at once: the bytes of a label, and the slots of a record that is cleared.
-/

universe u

namespace RazorCrypto.Shm

open MachineInt

/-- A store to one field of the shared memory. -/
inductive Write (α : Type u)
  | updateNum (value : Nat)
  | mdNum (value : Nat)
  | mdBuffNum (value : Nat)
  | incMdNum
  | incUpdateNum
  | clearIndex (i : Nat)
  | clearInstrumentId (i : Nat)
  | bufferLen (i : Nat) (value : Int)
  | clearDat (i : Nat)
  | fillInstrumentId (i : Nat) (instrument : Name)
  | markIndex (i : Nat)
  | storeDat (i slot : Nat) (newData : α)
  | incIndex (i : Nat)

variable {α : Type u} [MarketData α]

namespace Region

/-- A store to a field of one record. -/
def modify (shm : Region α) (i : Nat) (f : MdHeadPlus α → MdHeadPlus α) : Region α :=
  { shm with record := Function.update shm.record i (f (shm.record i)) }

/-- The shared memory after a store. -/
def write (shm : Region α) : Write α → Region α
  | .updateNum value => { shm with head := { shm.head with updateNum := value } }
  | .mdNum value => { shm with head := { shm.head with mdNum := value } }
  | .mdBuffNum value => { shm with head := { shm.head with mdBuffNum := value } }
  | .incMdNum => { shm with head := { shm.head with mdNum := shm.head.mdNum + 1 } }
  | .incUpdateNum => { shm with head := { shm.head with updateNum := shm.head.updateNum + 1 } }
  | .clearIndex i => shm.modify i fun r => { r with currentIndex := 0 }
  | .clearInstrumentId i => shm.modify i fun r => { r with instrumentId := List.replicate 16 0 }
  | .bufferLen i value => shm.modify i fun r => { r with bufferLen := value }
  | .clearDat i => shm.modify i fun r => { r with dat := fun _ => 0 }
  | .fillInstrumentId i instrument =>
    shm.modify i fun r => { r with instrumentId := strncpy r.instrumentId instrument 15 }
  | .markIndex i => shm.modify i fun r => { r with currentIndex := -1 }
  | .storeDat i slot newData =>
    shm.modify i fun r => { r with dat := Function.update r.dat slot newData }
  | .incIndex i => shm.modify i fun r => { r with currentIndex := r.currentIndex + 1 }

/-- The shared memory after several stores. -/
def writes (shm : Region α) (ws : List (Write α)) : Region α := ws.foldl write shm

theorem writes_append (shm : Region α) (ws ws' : List (Write α)) :
    shm.writes (ws ++ ws') = (shm.writes ws).writes ws' :=
  List.foldl_append

omit [MarketData α] in
theorem modify_modify (shm : Region α) (i : Nat) (f g : MdHeadPlus α → MdHeadPlus α) :
    (shm.modify i f).modify i g = shm.modify i (g ∘ f) := by
  simp [modify]

end Region

/-! ## The lists of stores -/

/-- `memset` over one record. -/
def clearRecord (i : Nat) : List (Write α) :=
  [.clearIndex i, .clearInstrumentId i, .bufferLen i 0, .clearDat i]

/-- `init_instrument_shm`. -/
def instrumentWrites (blockNum : Int) (head : Nat) (instrument : Name) : List (Write α) :=
  clearRecord head ++ [.fillInstrumentId head instrument, .bufferLen head blockNum, .incMdNum]

/-- The first loop of `init_shm`. -/
def enterWrites (blockNum : Int) : Nat → List Name → List (Write α)
  | _, [] => []
  | head, instrument :: instruments =>
    instrumentWrites blockNum head instrument ++ enterWrites blockNum (head + 1) instruments

/-- The end-marker loop of `init_shm`. -/
def markWrites : Nat → Nat → List (Write α)
  | _, 0 => []
  | tail, n + 1 => .markIndex tail :: markWrites (tail + 1) n

namespace ShmMdPlus

/-- `memset` over the `m_shm_size` bytes of the region. -/
def zeroWrites (s : ShmMdPlus α) : List (Write α) :=
  [.updateNum 0, .mdNum 0, .mdBuffNum 0] ++
    ((List.range s.mShmSize).filter fun i => decide (s.Fits i)).flatMap clearRecord

/-- `init_shm` from the first record on. -/
def initWrites (s : ShmMdPlus α) (instruments : List Name) : List (Write α) :=
  enterWrites s.mdBlockNum 0 instruments ++
    markWrites instruments.length (s.initLeft instruments + 1).toNat

/-- The part of `on_rtn_data` after the record is found. -/
def offerWrites (s : ShmMdPlus α) (index : Nat) (newData : α)
    (compare : Option (α → α → Bool)) : List (Write α) :=
  let record := s.shm.record index
  let updated := match compare with
    | some compare => compare (record.dat (record.nextOffset s.mdBlockNum)) newData
    | none => true
  if updated then
    [.storeDat index (record.nextOffset s.mdBlockNum) newData, .incIndex index, .incUpdateNum]
  else []

/-- `on_rtn_data`. -/
def rtnDataWrites (s : ShmMdPlus α) (c : Call α) : List (Write α) :=
  if s.mShmHead = false then []
  else
    match s.mInstrumentsAddress.lookup c.key with
    | some index => s.offerWrites index c.newData c.compare
    | none =>
      if s.mMdNum < s.mMaxInstrumentNum - 1 then
        instrumentWrites s.mdBlockNum s.mNextEmptyMd (cStr c.instrumentID) ++
          let s := s.registerInstrument (cStr c.instrumentID)
          match s.mInstrumentsAddress.lookup c.key with
          | some index => s.offerWrites index c.newData c.compare
          | none => []
      else []

/-- The fields that an operation stores, in order. -/
def writesOf (s : ShmMdPlus α) : Op α → List (Write α)
  | .setShmAddr instruments =>
    [.mdNum 0] ++ s.initWrites instruments ++ [.updateNum 0]
  | .reInitShm instruments =>
    s.zeroWrites ++ [.mdNum 0] ++ s.initWrites instruments ++
      [.updateNum 0, .mdBuffNum s.shm.head.mdBuffNum]
  | .onRtnData c => s.rtnDataWrites c

/-! ## Their effect -/

theorem writes_clearRecord (shm : Region α) (i : Nat) :
    shm.writes (clearRecord i) = shm.modify i fun _ => MdHeadPlus.zeroed := by
  simp only [clearRecord, Region.writes, List.foldl_cons, List.foldl_nil, Region.write,
    Region.modify_modify]
  rfl

theorem writes_instrument (s : ShmMdPlus α) (head : Nat) (instrument : Name) :
    s.shm.writes (instrumentWrites s.mdBlockNum head instrument) =
      (s.initInstrumentShm head instrument).shm := by
  rw [instrumentWrites, Region.writes_append, writes_clearRecord]
  simp only [Region.writes, List.foldl_cons, List.foldl_nil, Region.write, Region.modify_modify]
  rfl

theorem writes_enter (s : ShmMdPlus α) (instruments : List Name) :
    s.shm.writes (enterWrites s.mdBlockNum s.mNextEmptyMd instruments) =
      (instruments.foldl initNext s).shm := by
  induction instruments generalizing s with
  | nil => rfl
  | cons instrument instruments ih =>
      rw [enterWrites, Region.writes_append, writes_instrument, List.foldl_cons]
      exact ih (s.initNext instrument)

theorem writes_mark (shm : Region α) (tail n : Nat) :
    shm.writes (markWrites tail n) = { shm with record := markTail shm.record tail n } := by
  induction n generalizing shm tail with
  | zero => rfl
  | succ n ih => exact ih (shm.write (.markIndex tail)) (tail + 1)

theorem writes_init (s : ShmMdPlus α) (start : s.mNextEmptyMd = 0) (instruments : List Name) :
    s.shm.writes (s.initWrites instruments) = (s.initShm instruments).shm := by
  have next := (entered_foldl s start instruments).next
  rw [initWrites, Region.writes_append, ← start, writes_enter, writes_mark, initShm, next]

theorem writes_clearRecords (shm : Region α) (indices : List Nat) :
    shm.writes (indices.flatMap clearRecord) = { shm with
      record := fun i => if i ∈ indices then MdHeadPlus.zeroed else shm.record i } := by
  induction indices generalizing shm with
  | nil => simp [Region.writes]
  | cons index indices ih =>
      rw [List.flatMap_cons, Region.writes_append, writes_clearRecord, ih]
      refine congrArg (Region.mk _) (funext fun i => ?_)
      by_cases here : i = index
      · subst here
        simp [Region.modify]
      · simp [Region.modify, here]

/-- A record that fits lies before the end of the region. -/
theorem Fits.lt {s : ShmMdPlus α} {i : Nat} (fits : s.Fits i) : i < s.mShmSize := by
  have wide : 1 ≤ s.stride := by
    simp only [stride, sizeofMdHeadPlus]
    omega
  have long : i + 1 ≤ (i + 1) * s.stride := Nat.le_mul_of_pos_right _ wide
  simp only [Fits, headOffset] at fits
  omega

theorem writes_zero (s : ShmMdPlus α) : s.shm.writes s.zeroWrites = s.zeroShm.shm := by
  rw [zeroWrites, Region.writes_append, writes_clearRecords]
  refine congrArg (Region.mk _) (funext fun i => ?_)
  have member : i ∈ (List.range s.mShmSize).filter (fun i => decide (s.Fits i)) ↔ s.Fits i := by
    simpa using fun fits : s.Fits i => fits.lt
  simp only [member]
  rfl

omit [MarketData α] in
/-- An offer stores an update or nothing. -/
theorem offerWrites_cases (s : ShmMdPlus α) (index : Nat) (newData : α)
    (compare : Option (α → α → Bool)) :
    (s.offerUpdate index newData compare = (s.acceptUpdate index newData, true) ∧
      s.offerWrites index newData compare =
        [.storeDat index ((s.shm.record index).nextOffset s.mdBlockNum) newData,
          .incIndex index, .incUpdateNum]) ∨
    (s.offerUpdate index newData compare = (s, false) ∧
      s.offerWrites index newData compare = []) := by
  cases compare with
  | none => exact Or.inl ⟨rfl, rfl⟩
  | some compare =>
      dsimp only [offerUpdate, offerWrites]
      split
      · exact Or.inl ⟨rfl, rfl⟩
      · exact Or.inr ⟨rfl, rfl⟩

theorem writes_offer (s : ShmMdPlus α) (index : Nat) (newData : α)
    (compare : Option (α → α → Bool)) :
    s.shm.writes (s.offerWrites index newData compare) =
      (s.offerUpdate index newData compare).1.shm := by
  obtain ⟨accepted, stores⟩ | ⟨declined, nothing⟩ := s.offerWrites_cases index newData compare
  · rw [accepted, stores]
    simp only [Region.writes, List.foldl_cons, List.foldl_nil, Region.write, Region.modify_modify]
    rfl
  · rw [declined, nothing]
    rfl

/-- The name just registered is found at its record. -/
theorem lookup_registerInstrument {s : ShmMdPlus α} {id : Name}
    (absent : s.mInstrumentsAddress.lookup (comHash id) = none) :
    (s.registerInstrument id).mInstrumentsAddress.lookup (comHash id) = some s.mNextEmptyMd := by
  change (s.mInstrumentsAddress.insertNew (comHash id) s.mNextEmptyMd).lookup (comHash id) = _
  rw [AddressMap.lookup_insertNew, absent, if_pos rfl]
  rfl

/-- What a call can do, with its stores. -/
theorem rtnDataWrites_cases (s : ShmMdPlus α) (c : Call α) :
    (∃ i, s.mInstrumentsAddress.lookup c.key = some i ∧
      s.call c = s.offerUpdate i c.newData c.compare ∧
      s.rtnDataWrites c = s.offerWrites i c.newData c.compare) ∨
    (s.mInstrumentsAddress.lookup c.key = none ∧ s.mMdNum < s.mMaxInstrumentNum - 1 ∧
      s.call c =
        (s.registerInstrument (cStr c.instrumentID)).offerUpdate s.mNextEmptyMd c.newData
          c.compare ∧
      s.rtnDataWrites c = instrumentWrites s.mdBlockNum s.mNextEmptyMd (cStr c.instrumentID) ++
        (s.registerInstrument (cStr c.instrumentID)).offerWrites s.mNextEmptyMd c.newData
          c.compare) ∨
    (s.call c = (s, false) ∧ s.rtnDataWrites c = []) := by
  cases attached : s.mShmHead with
  | false => exact Or.inr (Or.inr (by simp [call, onRtnData, rtnDataWrites, attached]))
  | true =>
      obtain ⟨i, found, step⟩ | ⟨absent, free, step⟩ | ⟨absent, full, step⟩ :=
        onRtnData_cases s attached c.instrumentID c.newData c.compare
      · refine Or.inl ⟨i, found, step, ?_⟩
        simp [rtnDataWrites, attached, Call.key, found]
      · refine Or.inr (Or.inl ⟨absent, free, step, ?_⟩)
        have known := lookup_registerInstrument absent
        simp [rtnDataWrites, attached, Call.key, absent, free, known]
      · refine Or.inr (Or.inr ⟨step, ?_⟩)
        simp only [rtnDataWrites, attached, Call.key, absent, full, if_false]
        rfl

/-- Executing the stores of an operation has its effect. -/
theorem writes_writesOf (s : ShmMdPlus α) (op : Op α) :
    s.shm.writes (s.writesOf op) = (s.apply op).shm := by
  cases op with
  | setShmAddr instruments =>
      rw [writesOf, Region.writes_append, Region.writes_append]
      exact congrArg (·.write (.updateNum 0))
        (writes_init (s.opening instruments) rfl instruments)
  | reInitShm instruments =>
      rw [writesOf, Region.writes_append, Region.writes_append, Region.writes_append, writes_zero]
      exact congrArg
        (fun shm : Region α => (shm.write (.updateNum 0)).write (.mdBuffNum s.shm.head.mdBuffNum))
        (writes_init (s.reopening instruments) rfl instruments)
  | onRtnData c =>
      obtain ⟨i, -, step, stores⟩ | ⟨-, -, step, stores⟩ | ⟨step, nothing⟩ :=
        s.rtnDataWrites_cases c
      · rw [writesOf, stores, apply, step]
        exact s.writes_offer i c.newData c.compare
      · rw [writesOf, stores, apply, step, Region.writes_append, writes_instrument]
        exact writes_offer (s.registerInstrument (cStr c.instrumentID)) _ c.newData c.compare
      · rw [writesOf, nothing, apply, step]
        rfl

/-- `create_shm_ptr` once the file is visible. -/
def createWrites (page : Region α) (M N : Nat) : List (Write α) :=
  (created page M N).zeroWrites ++ [.mdBuffNum N]

/-- The store that `create_shm_ptr` has sized, before the `memset`. -/
def sized (page : Region α) (M N : Nat) : ShmMdPlus α :=
  { new page with
    mdBlockNum := asInt32 N
    mShmSize := (M * { new page with mdBlockNum := asInt32 N }.stride + sizeofMdShmHeadPlus) %
      2 ^ 64
    mMaxInstrumentNum := asInt32 M }

theorem created_eq (page : Region α) (M N : Nat) :
    created page M N = { (sized page M N).zeroShm with
      mShmHead := true
      shm := (sized page M N).zeroShm.shm.write (.mdBuffNum N) } := by
  simp only [created, createShmPtr, new]
  rfl

theorem writes_create (page : Region α) (M N : Nat) :
    page.writes (createWrites page M N) = (created page M N).shm := by
  have zeroed : (created page M N).zeroWrites = (sized page M N).zeroWrites := by
    rw [created_eq]
    rfl
  rw [createWrites, Region.writes_append, zeroed]
  change ((sized page M N).shm.writes (sized page M N).zeroWrites).write (.mdBuffNum N) = _
  rw [writes_zero, created_eq]

end ShmMdPlus
end RazorCrypto.Shm
