import RazorCrypto.Shm.Plus.Reader

/-!
# When a reader and the writer agree on instruments

The writer enters an instrument under the hash of its full name, a reader under the hash
of the label in its record. Both address maps resolve the same names to the same records
exactly when each registered name hashes like its label, which holds for all names that
fit in `instrument_id`.
-/

universe u

namespace RazorCrypto.Shm.ShmMdPlus

open MachineInt

variable {α : Type u} [MarketData α]

/-- A reader resolves every name as the writer does and returns the same data for it. -/
structure Agrees (writer reader : ShmMdPlus α) : Prop where
  address : ∀ id, reader.mInstrumentsAddress.lookup (comHash id) =
    writer.mInstrumentsAddress.lookup (comHash id)
  subMd : ∀ id, reader.subMd id = writer.subMd id
  getCurMd : ∀ id, reader.getCurMd id = writer.getCurMd id

/-- What a reader has after attaching to the region `shm`, with `n` live records. -/
structure Attached (shm : Region α) (N n : Nat) (reader : ShmMdPlus α) : Prop where
  attached : reader.mShmHead = true
  region : reader.shm = shm
  blockNum : reader.mdBlockNum = N
  lookup : ∀ key i, reader.mInstrumentsAddress.lookup key = some i ↔
    i < n ∧ comHash (shm.record i).name = key ∧
      ∀ j, i < j → j < n → comHash (shm.record j).name ≠ key

variable {M N : Nat} {b : Book comHash α} {s reader : ShmMdPlus α}

/-- `get_shm` by a new object attaches to all records of a represented store. -/
theorem Represents.getShm (h : Represents M N b s) (blocks : N < 2147483648)
    (page : Region α) (shmSize : Nat) {fuel : Nat} (enough : b.names.length < fuel) :
    ∃ reader, (new page).getShm s.shm shmSize fuel = some reader ∧
      Attached s.shm N b.names.length reader := by
  refine ⟨((new page).attach s.shm shmSize b.names.length).loadInstrumentsAddresses, ?_,
    rfl, rfl, ?_, ?_⟩
  · rw [ShmMdPlus.getShm, h.scanEnd enough, Option.map_some]
  · simp only [loadInstrumentsAddresses, attach, h.mdBuffNum]
    exact asInt32_of_mem (by omega) (by omega)
  · exact lookup_load (fun i => comHash (s.shm.record i).name) b.names.length

/-- One name on which the two maps must agree is enough to compare its label. -/
theorem Represents.stored_of_agrees (h : Represents M N b s)
    (reads : Attached s.shm N b.names.length reader) (agrees : Agrees s reader)
    {name : Name} (listed : name ∈ b.names) : comHash (stored name) = comHash name := by
  obtain ⟨i, inside, rfl⟩ := List.mem_iff_getElem.mp listed
  have found := (agrees.address b.names[i]).trans (h.lookup_getElem inside)
  obtain ⟨-, label, -⟩ := (reads.lookup _ i).mp found
  rwa [h.name_eq inside] at label

/-- If each registered name hashes like its label, a reader resolves every key as the writer
does. -/
theorem Represents.lookup_of_stored (h : Represents M N b s)
    (reads : Attached s.shm N b.names.length reader)
    (labels : ∀ name ∈ b.names, comHash (stored name) = comHash name) (key : UInt64) :
    reader.mInstrumentsAddress.lookup key = s.mInstrumentsAddress.lookup key := by
  have label : ∀ i (inside : i < b.names.length),
      comHash (s.shm.record i).name = comHash b.names[i] := by
    intro i inside
    rw [h.name_eq inside]
    exact labels _ (List.getElem_mem inside)
  refine Option.ext fun i => ?_
  rw [reads.lookup, h.lookup, List.getElem?_map, Option.map_eq_some_iff]
  constructor
  · rintro ⟨inside, found, -⟩
    exact ⟨b.names[i], List.getElem?_eq_getElem inside, (label i inside).symm.trans found⟩
  · rintro ⟨name, at_i, rfl⟩
    obtain ⟨inside, rfl⟩ := List.getElem?_eq_some_iff.mp at_i
    refine ⟨inside, label i inside, ?_⟩
    intro j later inside' same
    have found := h.lookup_getElem inside'
    rw [← label j inside', same, h.lookup_getElem inside] at found
    have equal := Option.some.inj found
    omega

theorem Represents.agrees_of_stored (h : Represents M N b s)
    (reads : Attached s.shm N b.names.length reader)
    (labels : ∀ name ∈ b.names, comHash (stored name) = comHash name) : Agrees s reader := by
  have address := h.lookup_of_stored reads labels
  refine ⟨fun id => address _, ?_, ?_⟩
  · intro id
    simp only [subMd, reads.attached, h.attached, address]
  · intro id
    simp only [getCurMd, reads.region, reads.blockNum, h.blockNum, address]

/-- Names that fit in `instrument_id` are read as they were written. -/
theorem Represents.agrees_of_short (h : Represents M N b s)
    (reads : Attached s.shm N b.names.length reader)
    (short : ∀ name ∈ b.names, (∀ c ∈ name, c ≠ 0) ∧ name.length ≤ 15) : Agrees s reader := by
  apply h.agrees_of_stored reads
  intro name listed
  obtain ⟨nonzero, fits⟩ := short name listed
  rw [stored_of_short nonzero fits]

/-- A reader that attaches after any run of calls agrees with the writer exactly if each
registered name hashes like the label in its record. -/
theorem reader_agrees_iff (page page' : Region α) {M N : Nat} {instruments : List Name}
    (capacity : M < 2147483648) (blocks : N < 2147483648) (room : instruments.length ≤ M)
    (distinct : (instruments.map comHash).Nodup) (calls : List (Call α)) (shmSize : Nat)
    {fuel : Nat} (enough : (roster M instruments calls).length < fuel) :
    ∃ reader, (new page').getShm ((start page M N instruments).run calls).1.shm shmSize fuel =
        some reader ∧
      (Agrees ((start page M N instruments).run calls).1 reader ↔
        ∀ name ∈ roster M instruments calls, comHash (stored name) = comHash name) := by
  obtain ⟨b, represented, names, -⟩ :=
    run_represents (start_represents page capacity blocks room distinct) calls
  rw [← names] at enough ⊢
  obtain ⟨reader, attached, reads⟩ := represented.getShm blocks page' shmSize enough
  refine ⟨reader, attached, ?_, represented.agrees_of_stored reads⟩
  intro agrees name listed
  exact represented.stored_of_agrees reads agrees listed

/-- Two instruments, of which the first was updated. -/
theorem reader_agrees_iff_two :
    ∃ reader, (new Region.zeroed).getShm
        ((start (Region.zeroed : Region UInt64) 2 1 [[65], [66]]).run [⟨[65], 7, none⟩]).1.shm 112
          3 = some reader ∧
      Agrees ((start Region.zeroed 2 1 [[65], [66]]).run [⟨[65], 7, none⟩]).1 reader := by
  obtain ⟨reader, attached, agrees⟩ := reader_agrees_iff Region.zeroed Region.zeroed
    (show 2 < 2147483648 by decide) (show 1 < 2147483648 by decide) (by decide) (by decide)
    [⟨[65], (7 : UInt64), none⟩] 112
    (show (roster 2 [[65], [66]] [⟨[65], (7 : UInt64), none⟩]).length < 3 by decide)
  exact ⟨reader, attached, agrees.mpr (by decide)⟩

/-- The shortest kind of name that does not fit in `instrument_id`. -/
def longName : Name := List.replicate 16 65

/-- A writer of one instrument with that name: a reader does not find it. -/
theorem reader_misses_long_name :
    ∃ reader, (new Region.zeroed).getShm
        ((start (Region.zeroed : Region UInt64) 1 1 [longName]).run []).1.shm 64 2 =
        some reader ∧
      ((start (Region.zeroed : Region UInt64) 1 1 [longName]).run []).1.subMd longName = some 0 ∧
      reader.subMd longName = none ∧
      ¬ Agrees ((start Region.zeroed 1 1 [longName]).run []).1 reader := by
  have stops : scanEnd ((start (Region.zeroed : Region UInt64) 1 1 [longName]).run []).1.shm.record
      2 0 = some 1 := by decide +kernel
  refine ⟨((new Region.zeroed).attach ((start Region.zeroed 1 1 [longName]).run []).1.shm 64
    1).loadInstrumentsAddresses, ?_, by decide +kernel, by decide +kernel, ?_⟩
  · rw [getShm, stops, Option.map_some]
  · intro agrees
    exact absurd (agrees.subMd longName) (by decide +kernel)

end RazorCrypto.Shm.ShmMdPlus
