import RazorCrypto.Foundation.SlotRing
import RazorCrypto.Shm.Plus.Invariant
import RazorCrypto.Shm.Tick.Scan

/-!
# What the slots of `shm_md_tick` hold

A record has three slots, and the updates of an instrument go to them in turn. Without a dump
function a slot holds the last update that went to it. A dump function merges an update into
the old content of its slot, that is into what it made of the third update before: what
`get_cur_md` points to has seen every third update only.
-/

universe u

namespace RazorCrypto.Shm

open MachineInt SlotRing

variable {α : Type u}

/-- `get_cur_md` of a record: the value its result points to. -/
def MdHead.getCurMd (r : MdHead α) : α := r.dat r.curOffset

namespace ShmMdTick

/-- `get_cur_md` by name: the value its result points to. -/
def getCurMd (s : ShmMdTick α) (instrument : Name) : Option α :=
  (s.mInstrumentsAddress.lookup (comHash instrument)).map fun index =>
    (s.shm.record index).getCurMd

/-- `get_update_num`. -/
def getUpdateNum (s : ShmMdTick α) (instrument : Name) : Int :=
  match s.mInstrumentsAddress.lookup (comHash instrument) with
  | some index => (s.shm.record index).currentIndex
  | none => 0

section
variable [Zero α]

/-- One call of `on_rtn_data`, with the log of the accepted updates. -/
def logged (t : ShmMdTick α × List (UInt64 × α)) (c : Call α) :
    ShmMdTick α × List (UInt64 × α) :=
  let result := t.1.onRtnData c.instrumentID c.newData c.compare
  (result.1, if result.2 then t.2 ++ [(comHash (cStr c.instrumentID), c.newData)] else t.2)

/-- The store and the log after some calls. -/
def loggedRun (s : ShmMdTick α) (calls : List (Call α)) : ShmMdTick α × List (UInt64 × α) :=
  calls.foldl logged (s, [])

end

/-- What a store makes of the old content of a slot and an update. -/
def merging (dump : Option (α → α → α)) : α → α → α := dump.getD fun _ newData => newData

/-! ## Calls -/

/-- The dynamic registration of `on_rtn_data`. -/
def registered [Zero α] (s : ShmMdTick α) (id : Name) : ShmMdTick α :=
  { s.initNext id with mMdNum := asInt32 (s.mMdNum + 1) }

variable {s : ShmMdTick α} {dump : Option (α → α → α)} {log : List (UInt64 × α)} {key : UInt64}
  {index : Nat} {M : Nat} {names instruments : List Name}

/-- What a call can do: offer the update to the record of a known instrument, register the
instrument first while there is room, or refuse it. -/
theorem onRtnData_cases [Zero α] (attached : s.mShmHead = true) (c : Call α) :
    (∃ i, s.mInstrumentsAddress.lookup (comHash (cStr c.instrumentID)) = some i ∧
      s.onRtnData c.instrumentID c.newData c.compare = s.offerUpdate i c.newData c.compare) ∨
    (s.mInstrumentsAddress.lookup (comHash (cStr c.instrumentID)) = none ∧
      s.mMdNum < s.mMaxMdNum ∧ s.onRtnData c.instrumentID c.newData c.compare =
        (s.registered (cStr c.instrumentID)).offerUpdate s.mNextEmptyMd c.newData c.compare) ∨
    (s.mInstrumentsAddress.lookup (comHash (cStr c.instrumentID)) = none ∧
      s.onRtnData c.instrumentID c.newData c.compare = (s, false)) := by
  rw [onRtnData, if_neg (by simp [attached])]
  dsimp only
  cases found : s.mInstrumentsAddress.lookup (comHash (cStr c.instrumentID)) with
  | some i => exact .inl ⟨i, rfl, rfl⟩
  | none =>
      by_cases free : s.mMdNum < s.mMaxMdNum
      · have entered : (s.initNext (cStr c.instrumentID)).mInstrumentsAddress.lookup
            (comHash (cStr c.instrumentID)) = some s.mNextEmptyMd := AList.lookup_insert _
        refine .inr (.inl ⟨rfl, free, ?_⟩)
        dsimp only
        rw [if_pos free, entered]
        rfl
      · exact .inr (.inr ⟨rfl, if_neg free⟩)

/-- Different keys have different records. -/
theorem Entered.injective (h : Entered names s) {key key' : UInt64} {i : Nat}
    (found : s.mInstrumentsAddress.lookup key = some i)
    (found' : s.mInstrumentsAddress.lookup key' = some i) : key = key' := by
  rw [h.address, AddressMap.lookup_ofKeys] at found found'
  exact Option.some.inj (found.1.symm.trans found'.1)

/-! ## The invariant -/

variable [Zero α]

/-- A record that took these updates. -/
structure Keeps (dump : Option (α → α → α)) (us : List α) (r : MdHead α) : Prop where
  index : r.currentIndex = us.length
  slots : Merged 3 1 (merging dump) 0 r.dat us

theorem Keeps.labelled (instrument : Name) : Keeps dump [] (MdHead.labelled instrument) :=
  ⟨rfl, Merged.nil fun _ _ => rfl⟩

theorem Keeps.store {us : List α} {r : MdHead α} (h : Keeps dump us r) (newData : α) :
    Keeps dump (us ++ [newData]) (r.store (merging dump (r.dat r.nextOffset) newData)) := by
  refine ⟨?_, ?_⟩
  · rw [MdHead.store, h.index, List.length_append, List.length_singleton]
    rfl
  · rw [MdHead.store, MdHead.nextOffset_eq h.index]
    exact h.slots.push newData

/-- The slot that `get_cur_md` points to has seen every third update, up to the newest one. -/
theorem Keeps.getCurMd {us : List α} {r : MdHead α} (h : Keeps dump us r) :
    r.getCurMd = (lane 3 us ((us.length + 2) % 3)).foldl (merging dump) 0 := by
  have slot : us.length % 3 = ((us.length + 2) % 3 + 1) % 3 := by omega
  rw [MdHead.getCurMd, MdHead.curOffset_eq h.index, slot]
  exact h.slots _ (Nat.mod_lt _ (by decide))

/-- Each known instrument has a record that took its accepted updates. -/
structure Contents (dump : Option (α → α → α)) (log : List (UInt64 × α)) (s : ShmMdTick α) :
    Prop where
  dumps : s.mMdDumpFun = dump
  keeps : ∀ key i, s.mInstrumentsAddress.lookup key = some i →
    Keeps dump (history log key) (s.shm.record i)
  unknown : ∀ key, s.mInstrumentsAddress.lookup key = none → history log key = []
  total : s.shm.head.updateNum = log.length

namespace Contents

omit [Zero α] in
/-- The content of the slot that an accepted update writes. -/
theorem acceptUpdate_eq (same : s.mMdDumpFun = dump) (newData : α) :
    s.acceptUpdate index newData =
      { s with shm :=
        { head := { s.shm.head with updateNum := s.shm.head.updateNum + 1 }
          record := Function.update s.shm.record index ((s.shm.record index).store
            (merging dump ((s.shm.record index).dat (s.shm.record index).nextOffset) newData)) } }
    := by
  subst same
  rw [acceptUpdate, merging]
  cases s.mMdDumpFun <;> rfl

theorem acceptUpdate (h : Contents dump log s) (entered : Entered names s)
    (found : s.mInstrumentsAddress.lookup key = some index) (newData : α) :
    Contents dump (log ++ [(key, newData)]) (s.acceptUpdate index newData) := by
  rw [acceptUpdate_eq h.dumps]
  refine ⟨h.dumps, fun other i known => ?_, fun other absent => ?_, ?_⟩
  · rw [history_append]
    by_cases own : key = other
    · subst own
      obtain rfl := Option.some.inj (found.symm.trans known)
      simp only [Function.update_self, if_pos]
      exact (h.keeps key index found).store newData
    · have ne : i ≠ index := fun same => own (entered.injective found (same ▸ known))
      simp only [Function.update_of_ne ne, if_neg own, List.append_nil]
      exact h.keeps other i known
  · have ne : key ≠ other := by
      rintro rfl
      cases absent.symm.trans found
    rw [history_append, if_neg ne, List.append_nil]
    exact h.unknown other absent
  · simp [h.total]

theorem offerUpdate (h : Contents dump log s) (entered : Entered names s)
    (found : s.mInstrumentsAddress.lookup key = some index) (newData : α)
    (compare : Option (α → α → Bool)) :
    Contents dump (if (s.offerUpdate index newData compare).2 then log ++ [(key, newData)] else log)
      (s.offerUpdate index newData compare).1 := by
  cases compare with
  | none => exact h.acceptUpdate entered found newData
  | some compare =>
      by_cases updated : compare
          ((s.shm.record index).dat (s.shm.record index).curOffset) newData = true
      · rw [ShmMdTick.offerUpdate]
        simpa only [updated, if_true] using h.acceptUpdate entered found newData
      · rw [ShmMdTick.offerUpdate]
        simpa only [updated, Bool.false_eq_true, if_false] using h

theorem registered (h : Contents dump log s) (entered : Entered names s) {id : Name}
    (absent : s.mInstrumentsAddress.lookup (comHash id) = none) :
    Contents dump log (s.registered id) := by
  have address : ∀ key, (s.registered id).mInstrumentsAddress.lookup key =
      if key = comHash id then some s.mNextEmptyMd else s.mInstrumentsAddress.lookup key := by
    intro key
    by_cases own : key = comHash id
    · subst own
      rw [if_pos rfl]
      exact AList.lookup_insert _
    · rw [if_neg own]
      exact AList.lookup_insert_ne own
  refine ⟨h.dumps, fun key i known => ?_, fun key unknown => ?_, h.total⟩
  · rw [address] at known
    show Keeps dump _ (Function.update s.shm.record s.mNextEmptyMd (MdHead.labelled id) i)
    by_cases own : key = comHash id
    · subst own
      rw [if_pos rfl] at known
      obtain rfl := Option.some.inj known
      rw [Function.update_self, h.unknown _ absent]
      exact Keeps.labelled id
    · rw [if_neg own] at known
      have inside := entered.inside known
      rw [Function.update_of_ne (by rw [entered.next]; omega)]
      exact h.keeps key i known
  · rw [address] at unknown
    split at unknown
    · cases unknown
    · exact h.unknown key unknown

theorem logged (h : Contents dump log s) (represents : Represents M names s) (c : Call α) :
    Contents dump (ShmMdTick.logged (s, log) c).2 (ShmMdTick.logged (s, log) c).1 := by
  rw [ShmMdTick.logged]
  obtain ⟨i, found, step⟩ | ⟨absent, free, step⟩ | ⟨-, step⟩ :=
    onRtnData_cases represents.attached c
  · rw [step]
    exact h.offerUpdate represents.toEntered found c.newData c.compare
  · rw [step]
    rw [represents.mdNum, represents.max] at free
    have room : names.length < M := by omega
    have entered := (represents.register room (cStr c.instrumentID)).toEntered
    have found : (s.registered (cStr c.instrumentID)).mInstrumentsAddress.lookup
        (comHash (cStr c.instrumentID)) = some s.mNextEmptyMd := AList.lookup_insert _
    exact (h.registered represents.toEntered absent).offerUpdate entered found c.newData c.compare
  · rw [step]
    exact h

end Contents

/-! ## The beginning -/

theorem foldl_initNext_record (s : ShmMdTick α) (first : s.mNextEmptyMd = 0)
    (empty : s.mInstrumentsAddress = ∅) (instruments : List Name) (i : Nat)
    (inside : i < instruments.length) :
    (instruments.foldl initNext s).shm.record i = MdHead.labelled instruments[i] := by
  induction instruments using List.reverseRecOn with
  | nil => cases inside
  | append_singleton instruments name ih =>
      have next := (foldl_initNext s first empty instruments).1.next
      simp only [List.foldl_append, List.foldl_cons, List.foldl_nil]
      show Function.update (instruments.foldl initNext s).shm.record
        (instruments.foldl initNext s).mNextEmptyMd (MdHead.labelled name) i = _
      rw [next]
      by_cases last : i = instruments.length
      · subst last
        simp
      · have old : i < instruments.length := by
          rw [List.length_append, List.length_singleton] at inside
          omega
        rw [Function.update_of_ne last, ih old, List.getElem_append_left old]

theorem foldl_initNext_mMdDumpFun (s : ShmMdTick α) (instruments : List Name) :
    (instruments.foldl initNext s).mMdDumpFun = s.mMdDumpFun := by
  induction instruments generalizing s with
  | nil => rfl
  | cons name instruments ih => exact ih (s.initNext name)

theorem Contents.start (page : TickRegion α) (capacity : M < 2147483648)
    (room : instruments.length ≤ M) (dump : Option (α → α → α)) :
    Contents dump [] (start page M instruments dump) := by
  have entered := (start_represents page capacity room dump).toEntered
  refine ⟨?_, fun key i known => ?_, fun _ _ => rfl, rfl⟩
  · exact foldl_initNext_mMdDumpFun _ instruments
  · have inside := entered.inside known
    have record : (ShmMdTick.start page M instruments dump).shm.record i =
        MdHead.labelled instruments[i] := by
      let opened : ShmMdTick α :=
        { (new page dump).createShmPtr page M with
          mShmHead := true
          mNextEmptyMd := 0
          shm := { ((new page dump).createShmPtr page M).shm with head := ⟨0, 0, 0⟩ }
          mMdNum := asInt32 (0 + instruments.length) }
      show markTail (instruments.foldl initNext opened).shm.record
        (instruments.foldl initNext opened).mNextEmptyMd
        (asInt32 ((M : Int) - instruments.length)).toNat i = _
      rw [(foldl_initNext opened rfl rfl instruments).1.next, markTail_apply, if_neg (by omega)]
      exact foldl_initNext_record opened rfl rfl instruments i inside
    rw [record]
    exact Keeps.labelled _

/-! ## All runs -/

theorem loggedRun_fst (s : ShmMdTick α) (calls : List (Call α)) :
    (s.loggedRun calls).1 = s.run calls := by
  induction calls using List.reverseRecOn with
  | nil => rfl
  | append_singleton calls c ih =>
      rw [loggedRun, List.foldl_append, run, List.foldl_append]
      exact congrArg (fun s : ShmMdTick α =>
        (s.onRtnData c.instrumentID c.newData c.compare).1) ih

theorem Contents.run (h : Contents dump [] s) (represents : Represents M names s)
    (calls : List (Call α)) :
    Contents dump (s.loggedRun calls).2 (s.loggedRun calls).1 := by
  induction calls using List.reverseRecOn with
  | nil => exact h
  | append_singleton calls c ih =>
      have kept := represents.run calls
      rw [← loggedRun_fst] at kept
      rw [loggedRun, List.foldl_append]
      exact ih.logged kept c

omit [Zero α] in
/-- A reader resolves names that fit in `instrument_id` as the writer does. -/
theorem Represents.reader_eq (h : Represents M names s)
    (short : ∀ name ∈ names, (∀ c ∈ name, c ≠ 0) ∧ name.length ≤ 31) {page : TickRegion α}
    {reader : ShmMdTick α} (attached : (new page none).getShm s.shm M = some reader) :
    reader.mInstrumentsAddress = s.mInstrumentsAddress ∧ reader.shm = s.shm := by
  obtain ⟨next, stop, rfl⟩ := Option.map_eq_some_iff.mp attached
  rw [h.scanEnd] at stop
  split at stop
  · obtain rfl := Option.some.inj stop
    refine ⟨?_, rfl⟩
    have labels : names.map (comHash ∘ tickLabel) = names.map comHash := by
      apply List.map_congr_left
      intro name listed
      obtain ⟨nonzero, fits⟩ := short name listed
      rw [Function.comp_apply, tickLabel, cStr_of_ne_zero nonzero, List.take_of_length_le fits]
    rw [h.address, ← labels, ← h.labels, ← foldl_insert_eq_ofKeys]
    rfl
  · cases stop

/-- What the store promises in every reachable state. Readers agree with the writer if each name
fits in its label: they hash the labels. -/
structure TickInvariant (M : Nat) (dump : Option (α → α → α)) (names : List Name)
    (log : List (UInt64 × α)) (s : ShmMdTick α) : Prop where
  known : ∀ key, s.mInstrumentsAddress.lookup key ≠ none ↔ key ∈ names.map comHash
  count : ∀ name, s.getUpdateNum name = (history log (comHash name)).length
  slots : ∀ key i, s.mInstrumentsAddress.lookup key = some i → ∀ r < 3,
    (s.shm.record i).dat ((r + 1) % 3) =
      (lane 3 (history log key) r).foldl (merging dump) 0
  newest : ∀ name, comHash name ∈ names.map comHash → s.getCurMd name =
    some ((lane 3 (history log (comHash name))
      (((history log (comHash name)).length + 2) % 3)).foldl (merging dump) 0)
  latest : dump = none → ∀ name, comHash name ∈ names.map comHash →
    ∀ nonempty : history log (comHash name) ≠ [],
      s.getCurMd name = some ((history log (comHash name)).getLast nonempty)
  total : s.shm.head.updateNum = log.length
  attaches : ∀ page, (∃ reader, (new page none).getShm s.shm M = some reader) ↔ names.length < M
  readers : (∀ name ∈ names, (∀ c ∈ name, c ≠ 0) ∧ name.length ≤ 31) →
    ∀ page reader, (new page none).getShm s.shm M = some reader →
      ∀ name, reader.getCurMd name = s.getCurMd name ∧
        reader.getUpdateNum name = s.getUpdateNum name

/-- Every state that a run of calls reaches from a fresh store keeps the invariant. -/
theorem tick_invariant (page : TickRegion α) (capacity : M < 2147483648)
    (room : instruments.length ≤ M) (dump : Option (α → α → α)) (calls : List (Call α)) :
    TickInvariant M dump (roster M instruments calls)
      ((start page M instruments dump).loggedRun calls).2
      ((start page M instruments dump).loggedRun calls).1 := by
  have opened := start_represents page capacity room dump
  have represents := opened.run calls
  have contents := (Contents.start page capacity room dump).run opened calls
  rw [← loggedRun_fst] at represents
  generalize ((start page M instruments dump).loggedRun calls).1 = s at represents contents ⊢
  generalize ((start page M instruments dump).loggedRun calls).2 = log at contents ⊢
  generalize roster M instruments calls = names at represents ⊢
  have known : ∀ key, s.mInstrumentsAddress.lookup key ≠ none ↔ key ∈ names.map comHash := by
    intro key
    rw [represents.address, Ne, AddressMap.lookup_ofKeys_eq_none_iff, not_not]
  have newest : ∀ name, comHash name ∈ names.map comHash → s.getCurMd name =
      some ((lane 3 (history log (comHash name))
        (((history log (comHash name)).length + 2) % 3)).foldl (merging dump) 0) := by
    intro name listed
    obtain ⟨i, found⟩ := Option.ne_none_iff_exists'.mp ((known _).mpr listed)
    rw [getCurMd, found, Option.map_some, (contents.keeps _ i found).getCurMd]
  refine ⟨known, fun name => ?_, fun key i found => (contents.keeps key i found).slots, newest,
    ?_, contents.total, fun page => ?_, ?_⟩
  · rw [getUpdateNum]
    cases found : s.mInstrumentsAddress.lookup (comHash name) with
    | some i => exact (contents.keeps _ i found).index
    | none => rw [contents.unknown _ found]; rfl
  · rintro rfl name listed nonempty
    have pos := List.length_pos_iff.mpr nonempty
    rw [newest name listed, ← foldl_lane_last 0 nonempty]
    congr 3
    omega
  · rw [getShm, represents.scanEnd]
    split
    · next free => exact iff_of_true ⟨_, rfl⟩ free
    · next full =>
        refine iff_of_false ?_ full
        rintro ⟨reader, attached⟩
        cases attached
  · intro short page reader attached name
    obtain ⟨address, region⟩ := represents.reader_eq short attached
    rw [getCurMd, getCurMd, getUpdateNum, getUpdateNum, address, region]
    exact ⟨rfl, rfl⟩

/-- Four updates of `A`, which a dump function adds up. -/
def fourUpdates : List (Call Nat) :=
  [⟨[65], 1, none⟩, ⟨[65], 10, none⟩, ⟨[65], 100, none⟩, ⟨[65], 1000, none⟩]

/-- The current slot has seen the first and the fourth of them. -/
theorem tick_invariant_sum :
    ((start zeroes 2 [[65]] (some (· + ·))).loggedRun fourUpdates).1.getCurMd [65] =
      some 1001 := by
  have invariant : TickInvariant 2 (some (· + ·)) (roster 2 [[65]] fourUpdates) _ _ :=
    tick_invariant zeroes (by decide) (by decide) (some (· + ·)) fourUpdates
  exact (invariant.newest [65] (by decide)).trans (by decide +kernel)

end ShmMdTick
end RazorCrypto.Shm
