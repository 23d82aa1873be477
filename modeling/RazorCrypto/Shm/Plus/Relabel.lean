import RazorCrypto.Shm.Plus.Invariant

/-!
# Labels and the address map across initialisations

A store may be initialised again, by `set_shm_addr` or by `re_init_shm`. Both start from
the first record and label the records anew, but neither clears the address map, and
`insert` keeps the positions of the names that it already has. So the map still fits the
labels exactly if the new list begins with the names that are registered, in the same
order. `allMatch_iff_allResume` says so for whole runs.
-/

universe u

namespace RazorCrypto.Shm.ShmMdPlus

variable {α : Type u} [MarketData α]

/-- An operation on a store. -/
inductive Op (α : Type u)
  | setShmAddr (instruments : List Name)
  | reInitShm (instruments : List Name)
  | onRtnData (call : Call α)

/-- The store after an operation. -/
def apply (s : ShmMdPlus α) : Op α → ShmMdPlus α
  | .setShmAddr instruments => s.setShmAddr instruments true
  | .reInitShm instruments => s.reInitShm instruments
  | .onRtnData c => (s.call c).1

/-- The instruments an operation starts anew from, if it is an initialisation. -/
def Op.instruments? : Op α → Option (List Name)
  | .setShmAddr instruments => some instruments
  | .reInitShm instruments => some instruments
  | .onRtnData _ => none

/-- An operation on ids of `U`, with at most `M` different ones in an initialisation. -/
def Op.Proper (M : Nat) (U : Set Name) : Op α → Prop
  | .setShmAddr instruments => (∀ id ∈ instruments, id ∈ U) ∧ instruments.Nodup ∧
      instruments.length ≤ M
  | .reInitShm instruments => (∀ id ∈ instruments, id ∈ U) ∧ instruments.Nodup ∧
      instruments.length ≤ M
  | .onRtnData c => cStr c.instrumentID ∈ U

/-- Ids that fit in `instrument_id` and have different hashes. -/
structure Ids (U : Set Name) : Prop where
  nonzero : ∀ id ∈ U, ∀ c ∈ id, c ≠ 0
  short : ∀ id ∈ U, id.length ≤ 15
  hash : Set.InjOn comHash U

/-- The labels of the live records, in order. -/
def labels (s : ShmMdPlus α) : List Name :=
  (List.range s.mNextEmptyMd).map fun i => (s.shm.record i).name

/-- An initialisation starts with the names that are registered, in their order. -/
def Resumes (s : ShmMdPlus α) (op : Op α) : Prop :=
  ∀ instruments, op.instruments? = some instruments → s.labels <+: instruments

/-- Every entry of the address map leads to a live record labelled with its id, different
entries lead to different records, and an accepted update is stored in the record that is
labelled with its id and nowhere else. -/
structure LabelsMatch (U : Set Name) (s : ShmMdPlus α) : Prop where
  known : ∀ key i, s.mInstrumentsAddress.lookup key = some i →
    ∃ id ∈ U, comHash id = key ∧ i < s.mNextEmptyMd ∧
      0 ≤ (s.shm.record i).currentIndex ∧ (s.shm.record i).name = id
  separate : ∀ key key' i, s.mInstrumentsAddress.lookup key = some i →
    s.mInstrumentsAddress.lookup key' = some i → key = key'
  stored : ∀ c : Call α, cStr c.instrumentID ∈ U → (s.call c).2 = true →
    ∃ i, (s.call c).1.mInstrumentsAddress.lookup c.key = some i ∧
      ((s.call c).1.shm.record i).name = cStr c.instrumentID ∧
      ((s.call c).1.shm.record i).getCurMd s.mdBlockNum = c.newData ∧
      ∀ j, j ≠ i → (s.call c).1.shm.record j = s.shm.record j

/-- The run matches in each of its states. -/
def AllMatch (U : Set Name) (s : ShmMdPlus α) : List (Op α) → Prop
  | [] => LabelsMatch U s
  | op :: ops => LabelsMatch U s ∧ AllMatch U (s.apply op) ops

/-- Each initialisation of the run starts with the names registered at that point. -/
def AllResume (s : ShmMdPlus α) : List (Op α) → Prop
  | [] => True
  | op :: ops => s.Resumes op ∧ AllResume (s.apply op) ops

/-! ## The invariant of resumed runs -/

/-- The address map and the labels fit, for names of `U`. -/
structure Fitting (U : Set Name) (names : List Name) (s : ShmMdPlus α) : Prop
    extends Addresses s names where
  attached : s.mShmHead = true
  member : ∀ id ∈ names, id ∈ U
  nodup : names.Nodup

variable {U : Set Name} {names : List Name} {s : ShmMdPlus α} {M N : Nat}

theorem Ids.nodup_hash (ids : Ids U) (member : ∀ id ∈ names, id ∈ U) (nodup : names.Nodup) :
    (names.map comHash).Nodup := by
  apply List.Nodup.map_on _ nodup
  intro id listed id' listed' same
  exact ids.hash (member id listed) (member id' listed') same

namespace Fitting

omit [MarketData α] in
theorem name_eq (h : Fitting U names s) (ids : Ids U) {i : Nat} (inside : i < names.length) :
    (s.shm.record i).name = names[i] := by
  have listed := h.member _ (List.getElem_mem inside)
  rw [h.toAddresses.name_eq inside, stored_of_short (ids.nonzero _ listed) (ids.short _ listed)]

omit [MarketData α] in
theorem labels_eq (h : Fitting U names s) (ids : Ids U) : s.labels = names := by
  apply List.ext_getElem
  · simp [labels, h.next]
  · intro i _ inside
    simpa [labels] using h.name_eq ids inside

omit [MarketData α] in
/-- A found id has the record with its label. -/
theorem name_of_lookup (h : Fitting U names s) (ids : Ids U) {id : Name} (proper : id ∈ U)
    {i : Nat} (found : s.mInstrumentsAddress.lookup (comHash id) = some i) :
    (s.shm.record i).name = id := by
  obtain ⟨inside, hash⟩ := h.of_lookup found
  rw [h.name_eq ids inside]
  exact ids.hash (h.member _ (List.getElem_mem inside)) proper hash

omit [MarketData α] in
theorem acceptUpdate (h : Fitting U names s) (i : Nat) (newData : α) :
    Fitting U names (s.acceptUpdate i newData) :=
  ⟨h.toAddresses.acceptUpdate i newData, h.attached, h.member, h.nodup⟩

theorem registerInstrument (h : Fitting U names s) {id : Name} (proper : id ∈ U)
    (fresh : comHash id ∉ names.map comHash) :
    Fitting U (names ++ [id]) (s.registerInstrument id) := by
  refine ⟨h.toAddresses.registerInstrument fresh, h.attached, ?_, ?_⟩
  · intro id' listed
    rcases List.mem_append.mp listed with old | new
    · exact h.member id' old
    · rwa [List.mem_singleton.mp new]
  · apply List.Nodup.append h.nodup (List.nodup_singleton id)
    rw [List.disjoint_singleton]
    exact fun listed => fresh (List.mem_map_of_mem listed)

/-- A call either offers the update to the record of its id, in a store that fits and
differs from the old one at most in this record, or has no effect. -/
theorem call_cases (h : Fitting U names s) {c : Call α} (proper : cStr c.instrumentID ∈ U) :
    (∃ names' t i, Fitting U names' t ∧ t.mInstrumentsAddress.lookup c.key = some i ∧
      t.mdBlockNum = s.mdBlockNum ∧ (∀ j, j ≠ i → t.shm.record j = s.shm.record j) ∧
      s.call c = t.offerUpdate i c.newData c.compare) ∨ s.call c = (s, false) := by
  rcases onRtnData_cases s h.attached c.instrumentID c.newData c.compare with
    ⟨i, found, step⟩ | ⟨absent, free, step⟩ | ⟨absent, full, step⟩
  · exact Or.inl ⟨names, s, i, h, found, rfl, fun _ _ => rfl, step⟩
  · have fresh := h.lookup_eq_none_iff.mp absent
    have registered := h.registerInstrument proper fresh
    refine Or.inl ⟨_, _, _, registered, ?_, rfl, ?_, step⟩
    · apply (registered.lookup _ _).mpr
      simp [h.next, Call.key]
    · intro j ne
      exact registerInstrument_record_of_ne _ ne
  · exact Or.inr step

/-- A call keeps the map and the labels fitting. -/
theorem call (h : Fitting U names s) {c : Call α} (proper : cStr c.instrumentID ∈ U) :
    ∃ names', Fitting U names' (s.call c).1 := by
  rcases h.call_cases proper with ⟨names', t, i, fits, -, -, -, step⟩ | step
  · refine ⟨names', ?_⟩
    rcases offerUpdate_cases t i c.newData c.compare with accepted | declined
    · rw [step, accepted]
      exact fits.acceptUpdate i c.newData
    · rw [step, declined]
      exact fits
  · rw [step]
    exact ⟨names, h⟩

theorem labelsMatch (h : Fitting U names s) (ids : Ids U) : LabelsMatch U s := by
  refine ⟨?_, ?_, ?_⟩
  · intro key i found
    obtain ⟨inside, hash⟩ := h.of_lookup found
    exact ⟨names[i], h.member _ (List.getElem_mem inside), hash, h.next ▸ inside,
      h.live i inside, h.name_eq ids inside⟩
  · intro key key' i found found'
    exact h.injective found found'
  · intro c proper answer
    rcases h.call_cases proper with ⟨names', t, i, fits, found, blockNum, others, step⟩ | step
    · rcases offerUpdate_cases t i c.newData c.compare with accepted | declined
      · rw [step, accepted, ← blockNum]
        obtain ⟨inside, -⟩ := fits.of_lookup found
        have self : (t.acceptUpdate i c.newData).shm.record i =
            (t.shm.record i).store t.mdBlockNum c.newData := Function.update_self ..
        refine ⟨i, found, (fits.acceptUpdate i c.newData).name_of_lookup ids proper found, ?_, ?_⟩
        · rw [self]
          exact MdHeadPlus.store_getCurMd (fits.live i inside) c.newData
        · intro j ne
          exact (acceptUpdate_record_of_ne c.newData ne).trans (others j ne)
      · rw [step, declined] at answer
        cases answer
    · rw [step] at answer
      cases answer

end Fitting

/-! ## Initialisations -/

/-- The state after an initialising operation, up to counters in the header: `init_shm`
ran on a state with the old address map. -/
theorem apply_initialized {op : Op α} {instruments : List Name}
    (initialises : op.instruments? = some instruments) (attached : s.mShmHead = true) :
    ∃ s' t, s'.mInstrumentsAddress = s.mInstrumentsAddress ∧ Initialized s' instruments t ∧
      (s.apply op).mShmHead = true ∧ (s.apply op).mNextEmptyMd = t.mNextEmptyMd ∧
      (s.apply op).mInstrumentsAddress = t.mInstrumentsAddress ∧
      (s.apply op).shm.record = t.shm.record := by
  cases op with
  | setShmAddr =>
      cases initialises
      have init := initialized_opening s instruments
      refine ⟨s.opening instruments, _, rfl, init, ?_, rfl, rfl, rfl⟩
      rw [apply, setShmAddr_eq, init.frame]
      rfl
  | reInitShm =>
      cases initialises
      have init := initialized_reopening s instruments
      refine ⟨s.reopening instruments, _, rfl, init, ?_, rfl, rfl, rfl⟩
      change ((s.reopening instruments).initShm instruments).mShmHead = true
      rw [init.frame]
      exact attached
  | onRtnData c => cases initialises

omit [MarketData α] in
theorem Op.Proper.instruments {op : Op α} {instruments : List Name} (proper : op.Proper M U)
    (initialises : op.instruments? = some instruments) :
    (∀ id ∈ instruments, id ∈ U) ∧ instruments.Nodup := by
  cases op with
  | setShmAddr =>
      cases initialises
      exact ⟨proper.1, proper.2.1⟩
  | reInitShm =>
      cases initialises
      exact ⟨proper.1, proper.2.1⟩
  | onRtnData c => cases initialises

namespace Fitting

/-- An initialisation that resumes fits its new list. -/
theorem initialise (h : Fitting U names s) (ids : Ids U) {op : Op α} {instruments : List Name}
    (initialises : op.instruments? = some instruments) (proper : op.Proper M U)
    (resumes : names <+: instruments) : Fitting U instruments (s.apply op) := by
  obtain ⟨s', t, old, init, attached, next, address, record⟩ :=
    apply_initialized initialises h.attached
  obtain ⟨member, nodup⟩ := proper.instruments initialises
  have addresses := init.addresses (ids.nodup_hash member nodup) resumes fun key i => by
    rw [old]
    exact h.lookup key i
  refine ⟨⟨?_, ?_, ?_, ?_⟩, attached, member, nodup⟩
  · rw [next]
    exact addresses.next
  · rw [address]
    exact addresses.lookup
  · rw [record]
    exact addresses.label
  · rw [record]
    exact addresses.live

theorem apply (h : Fitting U names s) (ids : Ids U) {op : Op α} (proper : op.Proper M U)
    (resumes : s.Resumes op) : ∃ names', Fitting U names' (s.apply op) := by
  cases op with
  | setShmAddr instruments =>
      exact ⟨_, h.initialise ids rfl proper (h.labels_eq ids ▸ resumes _ rfl)⟩
  | reInitShm instruments =>
      exact ⟨_, h.initialise ids rfl proper (h.labels_eq ids ▸ resumes _ rfl)⟩
  | onRtnData c => exact h.call proper

/-- Conversely, an initialisation after which the labels match has resumed: an old name
keeps its position in the map, and its record carries the new list's name for it. -/
theorem resumes (h : Fitting U names s) (ids : Ids U) {op : Op α} (proper : op.Proper M U)
    (after : LabelsMatch U (s.apply op)) : s.Resumes op := by
  intro instruments initialises
  obtain ⟨s', t, old, init, -, next, address, record⟩ :=
    apply_initialized initialises h.attached
  obtain ⟨member, -⟩ := proper.instruments initialises
  rw [h.labels_eq ids]
  have same : ∀ i (inside : i < names.length), instruments[i]? = some names[i] := by
    intro i inside
    have found : (s.apply op).mInstrumentsAddress.lookup (comHash names[i]) = some i := by
      rw [address]
      apply init.lookup_of_some
      rw [old]
      exact h.lookup_getElem inside
    obtain ⟨id, proper', hash, live, -, label⟩ := after.known _ i found
    rw [next, init.next] at live
    have unchanged := ids.hash proper' (h.member _ (List.getElem_mem inside)) hash
    have listed := member _ (List.getElem_mem live)
    rw [record, init.name_eq live,
      stored_of_short (ids.nonzero _ listed) (ids.short _ listed), unchanged] at label
    rw [List.getElem?_eq_getElem live, label]
  exact List.prefix_iff_getElem?.mpr same

theorem match_iff_resume (h : Fitting U names s) (ids : Ids U) {ops : List (Op α)}
    (proper : ∀ op ∈ ops, op.Proper M U) : AllMatch U s ops ↔ AllResume s ops := by
  induction ops generalizing names s with
  | nil => exact iff_of_true (h.labelsMatch ids) trivial
  | cons op ops ih =>
      have here := proper op List.mem_cons_self
      have later := fun op' listed => proper op' (List.mem_cons_of_mem op listed)
      constructor
      · rintro ⟨-, rest⟩
        have after : LabelsMatch U (s.apply op) := by
          cases ops with
          | nil => exact rest
          | cons => exact rest.1
        have resumes := h.resumes ids here after
        obtain ⟨names', fits⟩ := h.apply ids here resumes
        exact ⟨resumes, (ih fits later).mp rest⟩
      · rintro ⟨resumes, rest⟩
        obtain ⟨names', fits⟩ := h.apply ids here resumes
        exact ⟨h.labelsMatch ids, (ih fits later).mpr rest⟩

end Fitting

theorem created_fitting (page : Region α) (M N : Nat) (U : Set Name) :
    Fitting U [] (created page M N) := by
  refine ⟨⟨?_, ?_, ?_, ?_⟩, ?_, by simp, List.nodup_nil⟩
  · simp [created, createShmPtr, new, zeroShm]
  · simp [created_address]
  · simp
  · simp
  · simp [created, createShmPtr, new, zeroShm]

/-- A store with one slot at least: in every run that begins with an initialisation, the labels
match in all states exactly if each later initialisation starts with the names that are registered
at that point. -/
theorem allMatch_iff_allResume (page : Region α) {M N : Nat} (_blocks : 1 ≤ N) {U : Set Name}
    (ids : Ids U) {first : Op α} {instruments : List Name}
    (initialises : first.instruments? = some instruments) {ops : List (Op α)}
    (proper : ∀ op ∈ first :: ops, op.Proper M U) :
    AllMatch U ((created page M N).apply first) ops ↔
      AllResume ((created page M N).apply first) ops := by
  have start := created_fitting page M N U
  have opened := start.initialise ids initialises (proper first List.mem_cons_self)
    List.nil_prefix
  exact opened.match_iff_resume ids fun op listed => proper op (List.mem_cons_of_mem first listed)

/-- Two ids of one byte. -/
def twoIds : Set Name := {[65], [66]}

theorem twoIds_ids : Ids twoIds := by
  refine ⟨?_, ?_, ?_⟩
  · rintro id (rfl | rfl) <;> simp
  · rintro id (rfl | rfl) <;> simp
  · rintro id (rfl | rfl) id' (rfl | rfl) same
    · rfl
    · exact absurd same (by decide)
    · exact absurd same (by decide)
    · rfl

/-- After an update the store is initialised again, with one instrument more. -/
theorem allMatch_iff_allResume_two :
    AllMatch twoIds ((created (Region.zeroed : Region UInt64) 2 1).apply (.setShmAddr [[65]]))
        [.onRtnData ⟨[65], 7, none⟩, .reInitShm [[65], [66]]] := by
  refine (allMatch_iff_allResume (M := 2) (U := twoIds) Region.zeroed (le_refl 1) twoIds_ids rfl
    ?_).mpr ⟨nofun, ?_, trivial⟩
  · intro op listed
    simp only [List.mem_cons, List.not_mem_nil, or_false] at listed
    rcases listed with rfl | rfl | rfl
    · exact ⟨by simp [twoIds], by decide, by decide⟩
    · exact .inl rfl
    · exact ⟨by simp [twoIds], by decide, by decide⟩
  · rintro instruments ⟨⟩
    decide +kernel

/-- A store of two instruments, initialised again with the two swapped. -/
def swapped : ShmMdPlus UInt64 :=
  ((created Region.zeroed 2 1).apply (.setShmAddr [[65], [66]])).apply (.reInitShm [[66], [65]])

/-- The address map keeps the old positions: an update of the first instrument is stored
under the second one's label. -/
theorem swapped_mislabelled :
    ¬ LabelsMatch twoIds swapped ∧ swapped.subMd [65] = some 0 ∧
      (swapped.shm.record 0).name = [66] ∧ (swapped.call ⟨[65], 7, none⟩).2 = true ∧
      ((swapped.call ⟨[65], 7, none⟩).1.shm.record 0).dat 0 = 7 := by
  have found : swapped.mInstrumentsAddress.lookup (comHash [65]) = some 0 := by decide +kernel
  have label : (swapped.shm.record 0).name = [66] := by decide +kernel
  refine ⟨?_, found, label, by decide +kernel, by decide +kernel⟩
  intro labels
  obtain ⟨id, -, hash, -, -, name⟩ := labels.known _ _ found
  rw [← name, label] at hash
  exact absurd hash (by decide)

end RazorCrypto.Shm.ShmMdPlus
