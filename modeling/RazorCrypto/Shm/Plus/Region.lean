import RazorCrypto.Shm.Plus.Reader

/-!
# Which records the store writes, and the end of the region

`create_shm_ptr` allocates room for `M` records. The lists here say which record headers
an operation writes, in the order of its code: labels and end markers in `init_shm`, the
registered and the updated record in `on_rtn_data`. A record outside the list keeps its
value.

The end markers run from the first free record through record `M`, so that a reader always
finds one; but record `M` lies behind the region. Only the marker of that record is
misplaced: all other writes stay inside.
-/

universe u

namespace RazorCrypto.Shm.ShmMdPlus

open MachineInt

variable {α : Type u} [MarketData α]

/-- Record `i` is one of the `M` records for which the region was allocated, and lies in
its bytes. -/
def Inside (s : ShmMdPlus α) (M i : Nat) : Prop := i < M ∧ s.Fits i

theorem stride_pos (s : ShmMdPlus α) : 0 < s.stride :=
  Nat.lt_of_lt_of_le (show 0 < sizeofMdHeadPlus by decide) (Nat.le_add_right _ _)

/-- As long as the size computation does not wrap, the bytes hold exactly `M` records. -/
theorem fits_iff {s : ShmMdPlus α} {M : Nat}
    (size : s.mShmSize = M * s.stride + sizeofMdShmHeadPlus) (i : Nat) : s.Fits i ↔ i < M := by
  have stride := s.stride_pos
  have bytes : s.Fits i ↔ (i + 1) * s.stride ≤ M * s.stride := by
    rw [Fits, headOffset, size]
    omega
  rw [bytes, Nat.mul_le_mul_right_iff stride]
  omega

/-! ## Written headers -/

/-- The records whose headers `init_shm` writes: one for each instrument, then the end
markers. -/
def initHeaders (s : ShmMdPlus α) (instruments : List Name) : List Nat :=
  List.range' s.mNextEmptyMd instruments.length ++
    List.range' (s.mNextEmptyMd + instruments.length) (s.initLeft instruments + 1).toNat

/-- The records whose headers one call of `on_rtn_data` writes. -/
def callHeaders (s : ShmMdPlus α) (c : Call α) : List Nat :=
  let accepted := fun index => if (s.call c).2 then [index] else []
  if s.mShmHead = false then []
  else
    match s.mInstrumentsAddress.lookup c.key with
    | some index => accepted index
    | none =>
      if s.mMdNum < s.mMaxInstrumentNum - 1 then s.mNextEmptyMd :: accepted s.mNextEmptyMd
      else []

/-- The records whose headers a sequence of calls writes. -/
def runHeaders (s : ShmMdPlus α) : List (Call α) → List Nat
  | [] => []
  | c :: calls => s.callHeaders c ++ (s.call c).1.runHeaders calls

/-- The records whose headers are written from the creation of a store to the end of a run. -/
def headersWritten (page : Region α) (M N : Nat) (instruments : List Name)
    (calls : List (Call α)) : List Nat :=
  (created page M N).initHeaders instruments ++ (start page M N instruments).runHeaders calls

/-- A call leaves the records outside its list alone. -/
theorem call_record_of_notMem {s : ShmMdPlus α} (attached : s.mShmHead = true) {c : Call α}
    {i : Nat} (outside : i ∉ s.callHeaders c) : (s.call c).1.shm.record i = s.shm.record i := by
  have offered : ∀ (t : ShmMdPlus α) (j : Nat),
      (i ∉ if (t.offerUpdate j c.newData c.compare).2 then [j] else []) →
      (t.offerUpdate j c.newData c.compare).1.shm.record i = t.shm.record i := by
    intro t j unlisted
    rcases offerUpdate_cases t j c.newData c.compare with accepted | declined
    · rw [accepted] at unlisted ⊢
      exact acceptUpdate_record_of_ne c.newData (by simpa using unlisted)
    · rw [declined]
  rw [callHeaders, if_neg (by simp [attached])] at outside
  rcases onRtnData_cases s attached c.instrumentID c.newData c.compare with
    ⟨j, found, step⟩ | ⟨absent, free, step⟩ | ⟨absent, full, step⟩
  · have found' : s.mInstrumentsAddress.lookup c.key = some j := found
    simp only [found', call, step] at outside
    rw [call, step]
    exact offered s j outside
  · have absent' : s.mInstrumentsAddress.lookup c.key = none := absent
    simp only [absent', if_pos free, call, step, List.mem_cons, not_or] at outside
    rw [call, step, offered _ _ outside.2]
    exact registerInstrument_record_of_ne _ outside.1
  · rw [call, step]

/-- `on_rtn_data` writes only records inside the region. -/
theorem Represents.callHeaders_lt {M N : Nat} {b : Book comHash α} {s : ShmMdPlus α}
    (h : Represents M N b s) {c : Call α} {i : Nat} (written : i ∈ s.callHeaders c) :
    i < M := by
  have room := h.room
  rw [callHeaders, if_neg (by simp [h.attached])] at written
  cases found : s.mInstrumentsAddress.lookup c.key with
  | some j =>
      obtain ⟨inside, -⟩ := h.of_lookup found
      simp only [found, List.mem_ite_nil_right, List.mem_singleton] at written
      omega
  | none =>
      simp only [found, h.room_iff, h.next, List.mem_ite_nil_right, List.mem_cons,
        List.not_mem_nil, or_false] at written
      omega

/-- So do all calls of a run. -/
theorem Represents.runHeaders_lt {M N : Nat} {b : Book comHash α} {s : ShmMdPlus α}
    (h : Represents M N b s) {calls : List (Call α)} {i : Nat}
    (written : i ∈ s.runHeaders calls) : i < M := by
  induction calls generalizing b s with
  | nil => cases written
  | cons c calls ih =>
      rcases List.mem_append.mp written with here | later
      · exact h.callHeaders_lt here
      · obtain ⟨b', -, represented⟩ := h.onRtnData c.instrumentID c.newData c.compare
        exact ih represented later

theorem created_initLeft (page : Region α) (M N : Nat) (instruments : List Name) :
    (created page M N).initLeft instruments = asInt32 (M - instruments.length) := by
  rw [initLeft, created_maxNum, Int.sub_eq_add_neg, asInt32_add_asInt32, ← Int.sub_eq_add_neg]

/-- The headers written by `init_shm` are those of all records up to and including record
`M`, unless the number of free records overflows an `int`. -/
theorem mem_initHeaders_iff (page : Region α) {M : Nat} (N : Nat) {instruments : List Name}
    (room : instruments.length ≤ M) (noOverflow : M - instruments.length < 2147483648) (i : Nat) :
    i ∈ (created page M N).initHeaders instruments ↔ i ≤ M := by
  have left : (created page M N).initLeft instruments = M - instruments.length := by
    rw [created_initLeft, asInt32_of_mem (by omega) (by omega)]
  have first : (created page M N).mNextEmptyMd = 0 := by
    simp [created, createShmPtr, new, zeroShm]
  rw [initHeaders, List.mem_append, List.mem_range'_1, List.mem_range'_1, left, first]
  omega

/-! ## A store without room -/

/-- All instruments are among the first `k` records and no other can be registered. -/
structure Closed (k : Nat) (s : ShmMdPlus α) : Prop where
  attached : s.mShmHead = true
  known : ∀ key i, s.mInstrumentsAddress.lookup key = some i → i < k
  full : ¬ s.mMdNum < s.mMaxInstrumentNum - 1

/-- A call on a closed store keeps it closed, with the same instruments, and does not
reach record `k`. -/
theorem Closed.call {k : Nat} {s : ShmMdPlus α} (h : Closed k s) (c : Call α) :
    Closed k (s.call c).1 ∧ (s.call c).1.shm.head.mdNum = s.shm.head.mdNum ∧
      (s.call c).1.shm.record k = s.shm.record k := by
  rcases onRtnData_cases s h.attached c.instrumentID c.newData c.compare with
    ⟨j, found, step⟩ | ⟨absent, free, step⟩ | ⟨absent, full, step⟩
  · have before := h.known _ _ found
    rw [ShmMdPlus.call, step]
    rcases offerUpdate_cases s j c.newData c.compare with accepted | declined
    · rw [accepted]
      exact ⟨⟨h.attached, h.known, h.full⟩, rfl, acceptUpdate_record_of_ne _ (by omega)⟩
    · rw [declined]
      exact ⟨h, rfl, rfl⟩
  · exact absurd free h.full
  · rw [ShmMdPlus.call, step]
    exact ⟨h, rfl, rfl⟩

theorem Closed.run {k : Nat} {s : ShmMdPlus α} (h : Closed k s) (calls : List (Call α)) :
    Closed k (s.run calls).1 ∧ (s.run calls).1.shm.head.mdNum = s.shm.head.mdNum ∧
      (s.run calls).1.shm.record k = s.shm.record k := by
  induction calls using List.reverseRecOn with
  | nil => exact ⟨h, rfl, rfl⟩
  | append_singleton calls c ih =>
      obtain ⟨closed, mdNum, record⟩ := ih
      obtain ⟨closed', mdNum', record'⟩ := closed.call c
      rw [run_concat]
      exact ⟨closed', mdNum'.trans mdNum, record'.trans record⟩

/-- With more free records than an `int` counts, no end marker is written at all and the
first free record stays as it was. -/
theorem setShmAddr_closed {s : ShmMdPlus α} {M : Nat} {instruments : List Name}
    (maxNum : s.mMaxInstrumentNum = asInt32 M) (noKeys : s.mInstrumentsAddress = ∅)
    (uncounted : s.mMdNum = 0) (capacity : M < 4294967296)
    (overflow : 2147483648 ≤ M - instruments.length) :
    Closed instruments.length (s.setShmAddr instruments true) ∧
      (s.setShmAddr instruments true).shm.head.mdNum = instruments.length ∧
      (s.setShmAddr instruments true).shm.record instruments.length =
        s.shm.record instruments.length := by
  have init := initialized_opening s instruments
  have left : (s.opening instruments).initLeft instruments =
      M - instruments.length - 4294967296 := by
    change asInt32 (s.mMaxInstrumentNum - instruments.length) = _
    rw [maxNum, Int.sub_eq_add_neg, asInt32_add_asInt32, ← Int.sub_eq_add_neg]
    exact asInt32_of_upper (by omega) (by omega)
  rw [setShmAddr_eq]
  refine ⟨⟨?_, ?_, ?_⟩, init.mdNum.trans (Nat.zero_add _), ?_⟩
  · rw [init.frame]
    rfl
  · intro key i found
    change ((s.opening instruments).initShm instruments).mInstrumentsAddress.lookup key =
      some i at found
    have absent : (s.opening instruments).mInstrumentsAddress.lookup key = none := by
      change s.mInstrumentsAddress.lookup key = none
      rw [noKeys, AList.lookup_empty]
    rw [init.lookup, absent, Option.none_or, List.idxOf?_eq_some_iff] at found
    simpa using found.1
  · rw [init.frame]
    change ¬ asInt32 (s.mMdNum + instruments.length) < s.mMaxInstrumentNum - 1
    rw [uncounted, maxNum, asInt32_of_mem (by omega) (by omega),
      asInt32_of_upper (by omega) (by omega)]
    omega
  · exact init.beyond _ (Nat.le_refl _) (by omega)

/-! ## Containment -/

/-- Every written header is inside the region, and a reader's scan stops inside it after
`md_num` records. -/
structure RegionSafe (page : Region α) (M N : Nat) (instruments : List Name)
    (calls : List (Call α)) : Prop where
  written : ∀ i ∈ headersWritten page M N instruments calls, Inside (created page M N) M i
  stops : ∃ fuel, scanEnd ((start page M N instruments).run calls).1.shm.record fuel 0 =
    some ((start page M N instruments).run calls).1.shm.head.mdNum
  inside : Inside (created page M N) M
    ((start page M N instruments).run calls).1.shm.head.mdNum

/-- No run is safe. Either the last end marker lies behind the region, or no end marker is
written and the scan does not stop inside it. -/
theorem not_regionSafe (page : Region α) {M N : Nat} {instruments : List Name}
    (capacity : M < 4294967296) (room : instruments.length ≤ M) (calls : List (Call α)) :
    ¬ RegionSafe page M N instruments calls := by
  rintro ⟨written, ⟨fuel, stops⟩, inside⟩
  by_cases noOverflow : M - instruments.length < 2147483648
  · have marked := (mem_initHeaders_iff page N room noOverflow M).mpr (Nat.le_refl M)
    exact Nat.lt_irrefl M (written M (List.mem_append_left _ marked)).1
  · obtain ⟨closed, mdNum, record⟩ := setShmAddr_closed (created_maxNum page M N)
      (created_address page M N) (created_mdNum page M N) capacity (Nat.not_lt.mp noOverflow)
    rw [← start] at closed mdNum record
    obtain ⟨-, mdNum', record'⟩ := closed.run calls
    rw [mdNum', mdNum] at stops inside
    have negative := stop_of_scanEnd stops
    rw [record', record, created_record, if_pos inside.2] at negative
    exact absurd negative (Int.lt_irrefl 0)

theorem not_regionSafe_two :
    ¬ RegionSafe (Region.zeroed : Region UInt64) 2 1 [[65]] [⟨[66], 7, none⟩] :=
  not_regionSafe Region.zeroed (by decide) (by decide) [⟨[66], 7, none⟩]

/-- A full store of one instrument: the end marker is written to the record behind the
region. -/
theorem marker_outside_region :
    1 ∈ headersWritten (Region.zeroed : Region UInt64) 1 1 [[65]] [] ∧
      ((start (Region.zeroed : Region UInt64) 1 1 [[65]]).shm.record 1).currentIndex = -1 ∧
      ¬ Inside (created (Region.zeroed : Region UInt64) 1 1) 1 1 ∧
      ¬ (created (Region.zeroed : Region UInt64) 1 1).Fits 1 := by
  refine ⟨by decide +kernel, by decide +kernel, ?_, by decide +kernel⟩
  exact fun inside => absurd inside.1 (by decide)

end RazorCrypto.Shm.ShmMdPlus
