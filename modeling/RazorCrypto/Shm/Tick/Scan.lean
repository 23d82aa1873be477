import RazorCrypto.Shm.Tick.Store

/-!
# A reader of `shm_md_tick`

A reader looks for the first record that is not live. The writer keeps a marker behind its
records as long as one of them is free; the scan of a full store leaves the region. Where
the scan stops, the reader enters the hashes of the labels. They resolve like the names
that the writer registered exactly if no hash was changed by cutting a name.
-/

universe u

namespace RazorCrypto.Shm.ShmMdTick

open MachineInt AddressMap

variable {α : Type u}

/-- What a call of `on_rtn_data` does to the registered names of a store with `M` records. -/
def enrolled (M : Nat) (names : List Name) (call : Call α) : List Name :=
  let id := cStr call.instrumentID
  if comHash id ∈ names.map comHash then names
  else if names.length < M then names ++ [id] else names

/-- The names that are registered after some calls, in the order of their records. -/
def roster (M : Nat) (instruments : List Name) (calls : List (Call α)) : List Name :=
  calls.foldl (enrolled M) instruments

/-- The first records belong to these names, in order, and the address map resolves each key
to its last record. -/
structure Entered (names : List Name) (s : ShmMdTick α) : Prop where
  next : s.mNextEmptyMd = names.length
  address : s.mInstrumentsAddress = ofKeys (names.map comHash)
  label : ∀ i (inside : i < names.length),
    (s.shm.record i).instrumentId = strncpy (List.replicate 32 0) names[i] 31
  live : ∀ i, i < names.length → 0 ≤ (s.shm.record i).currentIndex

/-- The writer's store of `M` records with these names registered. -/
structure Represents (M : Nat) (names : List Name) (s : ShmMdTick α) : Prop
    extends Entered names s where
  capacity : M < 2147483648
  room : names.length ≤ M
  attached : s.mShmHead = true
  max : s.mMaxMdNum = M
  mdNum : s.mMdNum = names.length
  marked : ∀ i, names.length ≤ i → i < M → (s.shm.record i).currentIndex = -1

variable {M : Nat} {names instruments : List Name} {s : ShmMdTick α}

/-! ## The writer -/

namespace Entered

theorem name_eq (h : Entered names s) {i : Nat} (inside : i < names.length) :
    (s.shm.record i).name = tickLabel names[i] := by
  rw [MdHead.name, h.label i inside]
  exact cStr_strncpy_zeros names[i] 31

theorem inside (h : Entered names s) {key : UInt64} {i : Nat}
    (found : s.mInstrumentsAddress.lookup key = some i) : i < names.length := by
  rw [h.address, lookup_ofKeys] at found
  simpa using (List.getElem?_eq_some_iff.mp found.1).1

/-- A registration takes the next record, also for a name that is there already. -/
theorem initNext [Zero α] (h : Entered names s) (name : Name) :
    Entered (names ++ [name]) (s.initNext name) := by
  have length : (names ++ [name]).length = names.length + 1 := List.length_append
  have record : ∀ i, (s.initNext name).shm.record i =
      if i = names.length then MdHead.labelled name else s.shm.record i := by
    intro i
    rw [← h.next]
    exact Function.update_apply ..
  refine ⟨?_, ?_, ?_, ?_⟩
  · rw [length, ← h.next]
    rfl
  · rw [List.map_append, List.map_singleton, ofKeys_concat, List.length_map, ← h.address, ← h.next]
    rfl
  · intro i inside
    rw [record]
    by_cases last : i = names.length
    · subst last
      simp [MdHead.labelled]
    · have old : i < names.length := by omega
      rw [if_neg last, List.getElem_append_left old]
      exact h.label i old
  · intro i inside
    rw [record]
    by_cases last : i = names.length
    · rw [if_pos last]
      exact Int.le_refl 0
    · rw [if_neg last]
      exact h.live i (by omega)

end Entered

/-- The marker loop writes `current_index` of the records it passes, and nothing else. -/
theorem markTail_apply (record : Nat → MdHead α) (tail left i : Nat) :
    markTail record tail left i =
      if tail ≤ i ∧ i < tail + left then { record i with currentIndex := -1 } else record i := by
  induction left generalizing record tail with
  | zero => simp [markTail]
  | succ left ih =>
      rw [markTail, ih]
      by_cases here : i = tail
      · subst here
        rw [if_neg (by omega), if_pos (by omega), Function.update_self]
      · rw [Function.update_of_ne here]
        congr 1
        simp only [eq_iff_iff]
        omega

theorem foldl_initNext [Zero α] (s : ShmMdTick α) (start : s.mNextEmptyMd = 0)
    (empty : s.mInstrumentsAddress = ∅) (instruments : List Name) :
    Entered instruments (instruments.foldl initNext s) ∧
      (instruments.foldl initNext s).mShmHead = s.mShmHead ∧
      (instruments.foldl initNext s).mMaxMdNum = s.mMaxMdNum ∧
      (instruments.foldl initNext s).mMdNum = s.mMdNum := by
  induction instruments using List.reverseRecOn with
  | nil => exact ⟨⟨start, empty, nofun, nofun⟩, rfl, rfl, rfl⟩
  | append_singleton instruments name ih =>
      rw [List.foldl_append]
      exact ⟨ih.1.initNext name, ih.2⟩

theorem start_represents [Zero α] (page : TickRegion α) (capacity : M < 2147483648)
    (room : instruments.length ≤ M) (dump : Option (α → α → α)) :
    Represents M instruments (start page M instruments dump) := by
  let opened : ShmMdTick α :=
    { (new page dump).createShmPtr page M with
      mShmHead := true
      mNextEmptyMd := 0
      shm := { ((new page dump).createShmPtr page M).shm with head := ⟨0, 0, 0⟩ }
      mMdNum := asInt32 (0 + instruments.length) }
  obtain ⟨entered, attached, max, mdNum⟩ := foldl_initNext opened rfl rfl instruments
  have left : (asInt32 ((M : Int) - instruments.length)).toNat = M - instruments.length := by
    rw [asInt32_of_mem (by omega) (by omega)]
    omega
  have record : ∀ i, (start page M instruments dump).shm.record i =
      if instruments.length ≤ i ∧ i < M then
        { (instruments.foldl initNext opened).shm.record i with currentIndex := -1 }
      else (instruments.foldl initNext opened).shm.record i := by
    intro i
    change markTail (instruments.foldl initNext opened).shm.record
      (instruments.foldl initNext opened).mNextEmptyMd
      (asInt32 ((M : Int) - instruments.length)).toNat i = _
    rw [entered.next, left, markTail_apply, Nat.add_sub_cancel' room]
  refine ⟨⟨entered.next, entered.address, ?_, ?_⟩, capacity, room, attached, max, ?_, ?_⟩
  · intro i inside
    rw [record, if_neg (by omega)]
    exact entered.label i inside
  · intro i inside
    rw [record, if_neg (by omega)]
    exact entered.live i inside
  · refine mdNum.trans ?_
    change asInt32 (0 + instruments.length) = _
    rw [Int.zero_add, asInt32_of_mem (by omega) (by omega)]
  · intro i low high
    rw [record, if_pos ⟨low, high⟩]

/-- An update is no registration. -/
theorem Represents.acceptUpdate (h : Represents M names s) {index : Nat}
    (inside : index < names.length) (newData : α) :
    Represents M names (s.acceptUpdate index newData) := by
  have other : ∀ i, i ≠ index → (s.acceptUpdate index newData).shm.record i = s.shm.record i :=
    fun i ne => Function.update_of_ne ne ..
  have self : ((s.acceptUpdate index newData).shm.record index).instrumentId =
        (s.shm.record index).instrumentId ∧
      ((s.acceptUpdate index newData).shm.record index).currentIndex =
        (s.shm.record index).currentIndex + 1 := by
    simp [ShmMdTick.acceptUpdate, MdHead.store]
  refine ⟨⟨h.next, h.address, ?_, ?_⟩, h.capacity, h.room, h.attached, h.max, h.mdNum, ?_⟩
  · intro i listed
    by_cases here : i = index
    · subst here
      exact self.1.trans (h.label i listed)
    · rw [other i here]
      exact h.label i listed
  · intro i listed
    have live := h.live i listed
    by_cases here : i = index
    · subst here
      rw [self.2]
      omega
    · rwa [other i here]
  · intro i low high
    rw [other i (by omega)]
    exact h.marked i low high

theorem Represents.offerUpdate (h : Represents M names s) {index : Nat}
    (inside : index < names.length) (newData : α) (compare : Option (α → α → Bool)) :
    Represents M names (s.offerUpdate index newData compare).1 := by
  have accepted := h.acceptUpdate inside newData
  cases compare with
  | none => exact accepted
  | some compare =>
      by_cases updated : compare
          ((s.shm.record index).dat (s.shm.record index).curOffset) newData = true
      · rw [ShmMdTick.offerUpdate]
        simpa only [updated, if_true] using accepted
      · rw [ShmMdTick.offerUpdate]
        simpa only [updated, Bool.false_eq_true, if_false] using h

theorem Represents.register [Zero α] (h : Represents M names s) (free : names.length < M)
    (id : Name) :
    Represents M (names ++ [id])
      { s.initNext id with mMdNum := asInt32 ((s.initNext id).mMdNum + 1) } := by
  have length : (names ++ [id]).length = names.length + 1 := List.length_append
  have capacity := h.capacity
  have entered := h.toEntered.initNext id
  refine ⟨⟨entered.next, entered.address, entered.label, entered.live⟩, capacity, ?_, h.attached,
    h.max, ?_, ?_⟩
  · omega
  · change asInt32 (s.mMdNum + 1) = _
    rw [h.mdNum, asInt32_of_mem (by omega) (by omega), length]
    rfl
  · intro i low high
    change (Function.update s.shm.record s.mNextEmptyMd (MdHead.labelled id) i).currentIndex = -1
    rw [h.next, Function.update_of_ne (by omega)]
    exact h.marked i (by omega) high

theorem Represents.onRtnData [Zero α] (h : Represents M names s) (call : Call α) :
    Represents M (enrolled M names call)
      (s.onRtnData call.instrumentID call.newData call.compare).1 := by
  have attached : ¬ s.mShmHead = false := by
    rw [h.attached]
    decide
  rw [ShmMdTick.onRtnData, if_neg attached, enrolled]
  dsimp only
  cases found : s.mInstrumentsAddress.lookup (comHash (cStr call.instrumentID)) with
  | some index =>
      have listed : comHash (cStr call.instrumentID) ∈ names.map comHash := by
        by_contra unlisted
        rw [h.address, lookup_ofKeys_eq_none_iff.mpr unlisted] at found
        cases found
      rw [if_pos listed]
      exact h.offerUpdate (h.inside found) _ _
  | none =>
      have unlisted : comHash (cStr call.instrumentID) ∉ names.map comHash := by
        rwa [h.address, lookup_ofKeys_eq_none_iff] at found
      have free_iff : s.mMdNum < s.mMaxMdNum ↔ names.length < M := by
        rw [h.mdNum, h.max]
        omega
      rw [if_neg unlisted]
      by_cases free : names.length < M
      · have registered := h.register free (cStr call.instrumentID)
        have entry : (s.initNext (cStr call.instrumentID)).mInstrumentsAddress.lookup
            (comHash (cStr call.instrumentID)) = some s.mNextEmptyMd := AList.lookup_insert _
        dsimp only
        rw [if_pos (free_iff.mpr free), if_pos free, entry]
        exact registered.offerUpdate (registered.inside entry) _ _
      · dsimp only
        rw [if_neg (mt free_iff.mp free), if_neg free]
        exact h

theorem Represents.run [Zero α] (h : Represents M names s) (calls : List (Call α)) :
    Represents M (roster M names calls) (s.run calls) := by
  induction calls generalizing names s with
  | nil => exact h
  | cons call calls ih => exact ih (h.onRtnData call)

/-! ## The reader -/

section Scan

variable {record : Nat → MdHead α} {left i n : Nat}

/-- The scan passes live records and stops at the first record that is not. -/
theorem scanEnd_of_stop (start : i ≤ n)
    (live : ∀ j, i ≤ j → j < n → 0 ≤ (record j).currentIndex)
    (stop : (record n).currentIndex < 0) (inside : n < left + i) :
    scanEnd record left i = some n := by
  induction left generalizing i with
  | zero => omega
  | succ left ih =>
      by_cases last : i = n
      · subst last
        exact if_neg (by omega)
      · have before : i < n := by omega
        have rest := ih (i := i + 1) before (fun j low high => live j (by omega) high) (by omega)
        simpa only [scanEnd, if_pos (live i (Nat.le_refl i) before)] using rest

/-- With live records only, it leaves the region. -/
theorem scanEnd_of_live (live : ∀ j, i ≤ j → j < left + i → 0 ≤ (record j).currentIndex) :
    scanEnd record left i = none := by
  induction left generalizing i with
  | zero => rfl
  | succ left ih =>
      have rest := ih (i := i + 1) fun j low high => live j (by omega) (by omega)
      simpa only [scanEnd, if_pos (live i (Nat.le_refl i) (by omega))] using rest

end Scan

/-- A reader's scan finds the end of the records if a record is free. -/
theorem Represents.scanEnd (h : Represents M names s) :
    ShmMdTick.scanEnd s.shm.record M 0 = if names.length < M then some names.length else none := by
  by_cases free : names.length < M
  · have marked := h.marked names.length (Nat.le_refl _) free
    rw [if_pos free]
    exact scanEnd_of_stop (Nat.zero_le _) (fun j _ inside => h.live j inside) (by omega) free
  · have room := h.room
    rw [if_neg free]
    exact scanEnd_of_live fun j _ inside => h.live j (by omega)

theorem foldl_insert_eq_ofKeys (label : Nat → UInt64) (n : Nat) :
    (List.range n).foldl (fun (map : AddressMap) index => map.insert (label index) index) ∅ =
      ofKeys ((List.range n).map label) := by
  induction n with
  | zero => rfl
  | succ n ih =>
      rw [List.range_succ, List.foldl_append, ih, List.map_append, List.map_singleton,
        ofKeys_concat, List.length_map, List.length_range]
      rfl

/-- The labels of the records, in order. -/
theorem Represents.labels (h : Represents M names s) :
    (List.range names.length).map (fun index => comHash (s.shm.record index).name) =
      names.map (comHash ∘ tickLabel) := by
  refine List.ext_getElem (by simp) ?_
  intro i low high
  have inside : i < names.length := by simpa using high
  simp [h.name_eq inside]

/-- Cutting a name to its label does not change its hash, where the writer or a reader resolves
this hash to its record. -/
def Legible (names : List Name) : Prop :=
  ∀ (i : Nat) name, names[i]? = some name →
    IsLast (names.map comHash) (comHash name) i ∨
      IsLast (names.map (comHash ∘ tickLabel)) (comHash (tickLabel name)) i →
    comHash (tickLabel name) = comHash name

/-- Names that fit in `instrument_id` are not cut. -/
theorem legible_of_short (short : ∀ name ∈ names, (∀ c ∈ name, c ≠ 0) ∧ name.length ≤ 31) :
    Legible names := by
  intro i name found _
  obtain ⟨nonzero, fits⟩ := short name (List.mem_of_getElem? found)
  rw [tickLabel, cStr_of_ne_zero nonzero, List.take_of_length_le fits]

theorem legible_iff : Legible names ↔
    ∀ i key label, (names.map comHash)[i]? = some key →
      (names.map (comHash ∘ tickLabel))[i]? = some label →
        IsLast (names.map comHash) key i ∨ IsLast (names.map (comHash ∘ tickLabel)) label i →
        label = key := by
  constructor
  · intro legible i key label at_key at_label last
    rw [List.getElem?_map, Option.map_eq_some_iff] at at_key at_label
    obtain ⟨name, found, rfl⟩ := at_key
    obtain ⟨name', found', rfl⟩ := at_label
    obtain rfl : name = name' := Option.some.inj (found.symm.trans found')
    exact legible i name found last
  · intro matching i name found last
    exact matching i _ _ (by simp [found]) (by simp [found]) last

/-- After every run of a store of `M` records: a reader's scan stops inside the region, and its
map then resolves each key like the writer's, exactly if a record is free and the labels of the
registered names can be read back. -/
theorem reader_maps_iff [Zero α] (page page' : TickRegion α) (capacity : M < 2147483648)
    (room : instruments.length ≤ M) (dump : Option (α → α → α)) (calls : List (Call α)) :
    (∃ reader, (new page' none).getShm ((start page M instruments dump).run calls).shm M =
        some reader ∧
      ∀ key, reader.mInstrumentsAddress.lookup key =
        ((start page M instruments dump).run calls).mInstrumentsAddress.lookup key) ↔
      (roster M instruments calls).length < M ∧ Legible (roster M instruments calls) := by
  have h := (start_represents page capacity room dump).run calls
  generalize (start page M instruments dump).run calls = s at h ⊢
  generalize roster M instruments calls = names at h ⊢
  rw [getShm, h.scanEnd]
  by_cases free : names.length < M
  · rw [if_pos free, Option.map_some]
    have map : ∀ key, ((loadInstrumentsAddresses { (new page' none : ShmMdTick α) with
        mShmHead := true, shm := s.shm, mNextEmptyMd := names.length }).mInstrumentsAddress).lookup
          key = (ofKeys (names.map (comHash ∘ tickLabel))).lookup key := by
      intro key
      rw [← h.labels, ← foldl_insert_eq_ofKeys]
      rfl
    rw [legible_iff, ← lookup_ofKeys_eq_iff (by simp), ← h.address]
    constructor
    · rintro ⟨reader, attached, agree⟩
      obtain rfl := Option.some.inj attached
      exact ⟨free, fun key => (map key).symm.trans (agree key)⟩
    · rintro ⟨-, agree⟩
      exact ⟨_, rfl, fun key => (map key).trans (agree key)⟩
  · rw [if_neg free]
    exact iff_of_false (fun ⟨_, found, _⟩ => nomatch found) (fun ⟨inside, _⟩ => free inside)

/-- Zeroed memory. -/
def zeroes : TickRegion Nat := ⟨⟨0, 0, 0⟩, fun _ => MdHead.zeroed⟩

/-- An update of another instrument than the first. -/
def another : List (Call Nat) := [⟨[66], 7, none⟩]

/-- One instrument from the start and one that was registered, in a store of three records. -/
theorem reader_maps_iff_two :
    ∃ reader, (new zeroes none).getShm ((start zeroes 3 [[65]] none).run another).shm 3 =
        some reader ∧
      ∀ key, reader.mInstrumentsAddress.lookup key =
        ((start zeroes 3 [[65]] none).run another).mInstrumentsAddress.lookup key := by
  have names : roster 3 [[65]] another = [[65], [66]] := by decide +kernel
  refine (reader_maps_iff zeroes zeroes (by decide) (by decide) none another).mpr ?_
  rw [names]
  exact ⟨by decide, legible_of_short (by simp)⟩

/-- A store of one record with its one instrument: the scan leaves the region. -/
theorem scan_leaves_region :
    (new zeroes none).getShm ((start zeroes 1 [[65]] none).run []).shm 1 = none := by
  have h : Represents 1 [[65]] (start zeroes 1 [[65]] none) :=
    start_represents zeroes (by decide) (by decide) none
  exact congrArg (Option.map _) h.scanEnd

end RazorCrypto.Shm.ShmMdTick
