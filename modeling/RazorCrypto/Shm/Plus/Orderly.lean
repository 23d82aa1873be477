import RazorCrypto.Shm.Plus.Attaching

/-!
# What a reader gets in an orderly run

The invariant of the orderly runs has two halves. The stores that remain lead to a settled
store, which is what the next operation starts from. And outside initialisations, each of the
remaining stores is `Calm`: it may make a record live only if the record is in use, and a
label that it clears is filled in by a later one. So a reader only passes records in use, and
their labels are filled in unless a registration is about to do it.
-/

universe u

namespace RazorCrypto.Shm.ShmMdPlus.Attaching

open MachineInt Transition

variable {α : Type u} [MarketData α]

/-! ## Stores that an attaching reader may see -/

/-- The remaining stores keep the block length, make no record behind the first `n` live, and
fill in each label that they clear. -/
def Calm (n : Nat) : List (Write α) → Prop
  | [] => True
  | w :: ws =>
    (match w with
      | .mdBuffNum _ => False
      | .clearIndex i => i < n
      | .incIndex i => i < n
      | .clearInstrumentId i => ∃ name, .fillInstrumentId i name ∈ ws
      | _ => True) ∧ Calm n ws

/-- A reader gets the block length, and a live record is in use and labelled, or about to
be. -/
structure Attachable (M N : Nat) (st : Attaching α) : Prop where
  buffNum : st.writer.shm.head.mdBuffNum = N
  live : ∀ i, i ≤ M → 0 ≤ (st.writer.shm.record i).currentIndex → i < st.writer.mNextEmptyMd
  labelled : ∀ i, i < st.writer.mNextEmptyMd →
    st.filled i = true ∨ ∃ name, .fillInstrumentId i name ∈ st.todo
  calm : Calm st.writer.mNextEmptyMd st.todo

variable {M N n : Nat} {st st' : Attaching α} {s : ShmMdPlus α} {filled : Nat → Bool}
  {es : List (AttachEvent α)} {e : AttachEvent α}

omit [MarketData α] in
theorem calm_offer {index : Nat} (inside : index < n) (newData : α)
    (compare : Option (α → α → Bool)) : Calm n (s.offerWrites index newData compare) := by
  obtain ⟨-, stores⟩ | ⟨-, nothing⟩ := s.offerWrites_cases index newData compare
  · rw [stores]
    exact ⟨trivial, inside, trivial, trivial⟩
  · rw [nothing]
    trivial

omit [MarketData α] in
/-- A registration clears the label and fills it in. -/
theorem calm_instrument {head : Nat} (inside : head < n) (blockNum : Int) (instrument : Name)
    {ws : List (Write α)} (calm : Calm n ws) :
    Calm n (instrumentWrites blockNum head instrument ++ ws) :=
  ⟨inside, ⟨instrument, by simp⟩, trivial, trivial, trivial, trivial, trivial, calm⟩

omit [MarketData α] in
/-- A settled store is ready for a reader. -/
theorem attachable_of_settled (settled : Settled M N st.writer st.filled) (free : st.todo = []) :
    Attachable M N st := by
  refine ⟨settled.buffNum, fun i within live => settled.lt_of_live within live,
    fun i inside => Or.inl (settled.labelled i inside), ?_⟩
  rw [free]
  trivial

omit [MarketData α] in
theorem offerUpdate_next (index : Nat) (newData : α) (compare : Option (α → α → Bool)) :
    (s.offerUpdate index newData compare).1.mNextEmptyMd = s.mNextEmptyMd := by
  obtain accepted | declined := offerUpdate_cases s index newData compare
  · rw [accepted]
    rfl
  · rw [declined]

/-- It stays ready when a permitted call of `on_rtn_data` begins. -/
theorem attachable_beginning (settled : Settled M N st.writer st.filled) {c : Call α}
    (permitted : st.writer.Permitted (.onRtnData c)) :
    Attachable M N (st.beginning (.onRtnData c)) := by
  have live : ∀ i, i ≤ M → 0 ≤ (st.writer.shm.record i).currentIndex →
      i < st.writer.mNextEmptyMd := fun i within live => settled.lt_of_live within live
  obtain ⟨i, found, step, stores⟩ | ⟨-, -, step, stores⟩ | ⟨step, nothing⟩ :=
    st.writer.rtnDataWrites_cases c
  · have next : (st.beginning (.onRtnData c)).writer.mNextEmptyMd = st.writer.mNextEmptyMd := by
      change (st.writer.call c).1.mNextEmptyMd = _
      rw [step, offerUpdate_next]
    refine ⟨settled.buffNum, ?_, ?_, ?_⟩
    · rw [next]
      exact live
    · rw [next]
      exact fun j inside => Or.inl (settled.labelled j inside)
    · rw [next]
      change Calm _ (st.writer.rtnDataWrites c)
      rw [stores]
      exact calm_offer (permitted i found) c.newData c.compare
  · have next : (st.beginning (.onRtnData c)).writer.mNextEmptyMd =
        st.writer.mNextEmptyMd + 1 := by
      change (st.writer.call c).1.mNextEmptyMd = _
      rw [step, offerUpdate_next]
      rfl
    have todo : (st.beginning (.onRtnData c)).todo = st.writer.rtnDataWrites c := rfl
    rw [stores] at todo
    refine ⟨settled.buffNum, ?_, ?_, ?_⟩
    · rw [next]
      exact fun j within used => Nat.lt_succ_of_lt (live j within used)
    · rw [next, todo]
      intro j inside
      by_cases last : j = st.writer.mNextEmptyMd
      · subst last
        exact Or.inr ⟨cStr c.instrumentID, by simp [instrumentWrites]⟩
      · exact Or.inl (settled.labelled j (by omega))
    · rw [next, todo]
      exact calm_instrument (Nat.lt_succ_self _) _ _
        (calm_offer (Nat.lt_succ_self _) c.newData c.compare)
  · have same : st.beginning (.onRtnData c) = { st with todo := [], initialising := false } := by
      rw [beginning, writesOf, nothing, ShmMdPlus.apply, step]
      rfl
    rw [same]
    exact attachable_of_settled settled rfl

/-! ## One store -/

omit [MarketData α] in
theorem modify_currentIndex {shm : Region α} {j : Nat} {f : MdHeadPlus α → MdHeadPlus α}
    (keeps : (f (shm.record j)).currentIndex = (shm.record j).currentIndex) (i : Nat) :
    ((shm.modify j f).record i).currentIndex = (shm.record i).currentIndex := by
  by_cases same : i = j
  · subst same
    simpa [Region.modify] using keeps
  · simp [Region.modify, same]

omit [MarketData α] in
theorem modify_record_of_ne (shm : Region α) {i j : Nat} (f : MdHeadPlus α → MdHeadPlus α)
    (other : i ≠ j) : (shm.modify j f).record i = shm.record i := by
  simp [Region.modify, other]

/-- A store that makes a record live writes its `current_index`. -/
theorem live_write {shm : Region α} {w : Write α} {i : Nat}
    (live : 0 ≤ ((shm.write w).record i).currentIndex) :
    0 ≤ (shm.record i).currentIndex ∨ w = .clearIndex i ∨ w = .incIndex i := by
  cases w with
  | updateNum | mdNum | mdBuffNum | incMdNum | incUpdateNum => exact Or.inl live
  | clearInstrumentId | bufferLen | clearDat | fillInstrumentId | storeDat =>
      rw [Region.write, modify_currentIndex rfl] at live
      exact Or.inl live
  | clearIndex j =>
      by_cases same : i = j
      · exact Or.inr (Or.inl (same ▸ rfl))
      · rw [Region.write, modify_record_of_ne _ _ same] at live
        exact Or.inl live
  | incIndex j =>
      by_cases same : i = j
      · exact Or.inr (Or.inr (same ▸ rfl))
      · rw [Region.write, modify_record_of_ne _ _ same] at live
        exact Or.inl live
  | markIndex j =>
      by_cases same : i = j
      · subst same
        simp [Region.write, Region.modify] at live
      · rw [Region.write, modify_record_of_ne _ _ same] at live
        exact Or.inl live

omit [MarketData α] in
/-- A label is filled in, or about to be, also after a store that fills in what it clears. -/
theorem labelled_write {w : Write α} {ws : List (Write α)} {i : Nat}
    (labelled : filled i = true ∨ ∃ name, .fillInstrumentId i name ∈ w :: ws)
    (fills : w = .clearInstrumentId i → ∃ name, .fillInstrumentId i name ∈ ws) :
    fillAfter filled w i = true ∨ ∃ name, .fillInstrumentId i name ∈ ws := by
  cases w with
  | clearInstrumentId j =>
      by_cases same : i = j
      · exact Or.inr (fills (same ▸ rfl))
      · simpa [fillAfter, same] using labelled
  | fillInstrumentId j name =>
      by_cases same : i = j
      · simp [fillAfter, same]
      · simpa [fillAfter, same] using labelled
  | _ => simpa [fillAfter] using labelled

/-- Executing a store keeps the reader safe. -/
theorem Attachable.write (h : Attachable M N st) {w : Write α} {ws : List (Write α)}
    (pending : st.todo = w :: ws) : Attachable M N (st.executed [w] ws) := by
  have calm := h.calm
  rw [pending] at calm
  obtain ⟨harmless, calm⟩ := calm
  refine ⟨?_, ?_, ?_, calm⟩
  · cases w with
    | mdBuffNum => exact harmless.elim
    | _ => exact h.buffNum
  · intro i within live
    obtain before | rfl | rfl := live_write live
    · exact h.live i within before
    · exact harmless
    · exact harmless
  · intro i inside
    have labelled := h.labelled i inside
    rw [pending] at labelled
    refine labelled_write labelled ?_
    rintro rfl
    exact harmless

/-! ## The reader -/

/-- The writer when it has executed all its stores. -/
def finished (st : Attaching α) : ShmMdPlus α :=
  { st.writer with shm := st.writer.shm.writes st.todo }

/-- Each entry of the map was made from a filled-in label. -/
def Made (es : List (AttachEvent α)) (map : AddressMap) : Prop :=
  ∀ key i, map.lookup key = some i → AttachEvent.mapped i true ∈ es

/-- A reader in `get_shm` has the block length and passed only the first `n` records. -/
def Within (N n : Nat) (es : List (AttachEvent α)) : Reader → Prop
  | .idle => True
  | .scanning blockNum next => blockNum = N ∧ next ≤ n
  | .loading blockNum next _ map => blockNum = N ∧ next ≤ n ∧ Made es map
  | .attached blockNum map => blockNum = N ∧ Made es map

/-- The invariant of the orderly runs. -/
structure Sound (M N : Nat) (es : List (AttachEvent α)) (st : Attaching α) : Prop where
  settled : Settled M N st.finished (fillAll st.filled st.todo)
  attachable : st.initialising = false → Attachable M N st
  reader : Within N st.writer.mNextEmptyMd es st.reader
  filledIn : ∀ i filledIn, AttachEvent.mapped i filledIn ∈ es → filledIn = true

omit [MarketData α] in
theorem Made.concat {map : AddressMap} (made : Made es map) (e : AttachEvent α) :
    Made (es ++ [e]) map :=
  fun key i found => List.mem_append_left _ (made key i found)

omit [MarketData α] in
theorem Made.insert {map : AddressMap} (made : Made es map) (key : UInt64) (index : Nat) :
    Made (es ++ [.mapped index true]) (map.insert key index) := by
  intro key' i found
  by_cases same : key' = key
  · subst same
    rw [AList.lookup_insert] at found
    cases found
    simp
  · rw [AList.lookup_insert_ne same] at found
    exact made.concat _ key' i found

omit [MarketData α] in
/-- The records in use grow in number, and other steps are taken. -/
theorem Within.concat {reader : Reader} (within : Within N n es reader) {n' : Nat} (more : n ≤ n')
    (e : AttachEvent α) : Within N n' (es ++ [e]) reader := by
  cases reader with
  | idle => trivial
  | scanning => exact ⟨within.1, within.2.trans more⟩
  | loading => exact ⟨within.1, within.2.1.trans more, within.2.2.concat e⟩
  | attached => exact ⟨within.1, within.2.concat e⟩

omit [MarketData α] in
/-- A reader outside `get_shm` does not care about the records in use. -/
theorem Within.of_outside (within : Within N n es st.reader) (outside : st.Outside) (n' : Nat)
    (e : AttachEvent α) : Within N n' (es ++ [e]) st.reader := by
  obtain idle | ⟨blockNum, map, attached⟩ := outside
  · rw [idle]
    trivial
  · rw [attached] at within ⊢
    exact ⟨within.1, within.2.concat e⟩

theorem finished_of_free (free : st.todo = []) : st.finished = st.writer := by
  rw [finished, free]
  rfl

theorem finished_beginning (st : Attaching α) (op : Op α) :
    (st.beginning op).finished = st.writer.apply op := by
  have stores := st.writer.writes_writesOf op
  change { st.writer.apply op with shm := st.writer.shm.writes (st.writer.writesOf op) } = _
  rw [stores]

theorem finished_executed {w : Write α} {ws : List (Write α)} (pending : st.todo = w :: ws) :
    (st.executed [w] ws).finished = st.finished := by
  rw [finished, finished, pending]
  rfl

namespace Sound

theorem settled_writer (h : Sound M N es st) (free : st.todo = []) :
    Settled M N st.writer st.filled := by
  have settled := h.settled
  rw [finished_of_free free, free] at settled
  exact settled

/-- A reader may step whenever no initialisation is under way. -/
theorem attachable_of_built (h : Sound M N es st) (built : st.Built) : Attachable M N st := by
  cases initialising : st.initialising with
  | false => exact h.attachable initialising
  | true =>
      have free := built initialising
      exact attachable_of_settled (h.settled_writer free) free

theorem mapped_concat (h : Sound M N es st) (plain : ∀ i filledIn, e ≠ .mapped i filledIn) :
    ∀ i filledIn, AttachEvent.mapped i filledIn ∈ es ++ [e] → filledIn = true := by
  intro i filledIn listed
  obtain old | new := List.mem_append.mp listed
  · exact h.filledIn i filledIn old
  · exact absurd (List.mem_singleton.mp new).symm (plain i filledIn)

theorem next_le_beginning (st : Attaching α) (c : Call α) :
    st.writer.mNextEmptyMd ≤ (st.beginning (.onRtnData c)).writer.mNextEmptyMd := by
  change _ ≤ (st.writer.call c).1.mNextEmptyMd
  obtain ⟨i, -, step, -⟩ | ⟨-, -, step, -⟩ | ⟨step, -⟩ := st.writer.rtnDataWrites_cases c
  · rw [step, offerUpdate_next]
  · rw [step, offerUpdate_next]
    exact Nat.le_succ _
  · rw [step]

theorem begin (h : Sound M N es st) (capacity : M < 2147483648) {op : Op α} (free : st.todo = [])
    (permitted : st.writer.Permitted op) (apart : op.instruments?.isSome = true → st.Outside) :
    Sound M N (es ++ [.began op]) (st.beginning op) := by
  have settled := h.settled_writer free
  refine ⟨?_, ?_, ?_, h.mapped_concat (by simp)⟩
  · rw [finished_beginning]
    exact settled.apply capacity permitted
  · intro updates
    cases op with
    | setShmAddr | reInitShm => cases updates
    | onRtnData c => exact attachable_beginning settled permitted
  · cases op with
    | setShmAddr | reInitShm => exact h.reader.of_outside (apart rfl) _ _
    | onRtnData c => exact h.reader.concat (next_le_beginning st c) _

theorem write (h : Sound M N es st) {w : Write α} {ws : List (Write α)}
    (pending : st.todo = w :: ws) : Sound M N (es ++ [.wrote]) (st.executed [w] ws) := by
  refine ⟨?_, fun updates => (h.attachable updates).write pending,
    h.reader.concat (Nat.le_refl _) _, h.mapped_concat (by simp)⟩
  have settled := h.settled
  rw [pending] at settled
  rw [finished_executed pending]
  exact settled

/-- The reader moves on. -/
theorem move (h : Sound M N es st) {reader : Reader}
    (within : Within N st.writer.mNextEmptyMd (es ++ [e]) reader)
    (filledIn : ∀ i filledIn, AttachEvent.mapped i filledIn ∈ es ++ [e] → filledIn = true) :
    Sound M N (es ++ [e]) (st.reading reader) := by
  refine ⟨h.settled, fun updates => ?_, within, filledIn⟩
  have attachable := h.attachable updates
  exact ⟨attachable.buffNum, attachable.live, attachable.labelled, attachable.calm⟩

/-- A reader with the block length sees the records of the writer. -/
theorem sees_record (h : Sound M N es st) {index : Nat} {r : MdHeadPlus α}
    (sees : st.Sees N index r) : r = st.writer.shm.record index :=
  sees (Or.inr h.settled.blockNum.symm)

/-- Every orderly step keeps the invariant. -/
theorem step (h : Sound M N es st) (capacity : M < 2147483648) (blocks : N < 2147483648)
    (taken : OrderlyStep st e st') : Sound M N (es ++ [e]) st' := by
  obtain ⟨orderly, taken⟩ := taken
  have reader := h.reader
  cases taken with
  | begin free => exact h.begin capacity free orderly.1 orderly.2
  | write pending => exact h.write pending
  | readBuffNum position =>
      refine h.move ⟨?_, Nat.zero_le _⟩ (h.mapped_concat (by simp))
      rw [(h.attachable_of_built orderly).buffNum]
      exact asInt32_of_mem (by omega) (by omega)
  | pass position sees live =>
      rw [position] at reader
      obtain ⟨rfl, passed⟩ := reader
      have room : st.writer.mNextEmptyMd ≤ M := h.settled.room
      rw [h.sees_record sees] at live
      have used := (h.attachable_of_built orderly).live _ (by omega) live
      exact h.move ⟨rfl, used⟩ (h.mapped_concat (by simp))
  | stop position =>
      rw [position] at reader
      have made : Made (es ++ [AttachEvent.read]) ∅ := by simp [Made]
      exact h.move ⟨reader.1, reader.2, made⟩ (h.mapped_concat (by simp))
  | load position inside divides sees =>
      rw [position] at reader
      obtain ⟨rfl, passed, made⟩ := reader
      obtain ⟨built, quiet⟩ := orderly
      have labelled := (h.attachable_of_built built).labelled _ (inside.trans_le passed)
      have filled := labelled.resolve_right fun ⟨name, pending⟩ => quiet name pending
      have meets : ∀ index, st.Meets N index := fun _ => Or.inr h.settled.blockNum.symm
      simp only [meets, filled, decide_true, Bool.and_self] at *
      refine h.move ⟨rfl, passed, made.insert _ _⟩ ?_
      intro i filledIn listed
      obtain old | new := List.mem_append.mp listed
      · exact h.filledIn i filledIn old
      · cases List.mem_singleton.mp new
        rfl
  | finish position =>
      rw [position] at reader
      exact h.move ⟨reader.1, reader.2.2.concat _⟩ (h.mapped_concat (by simp))

end Sound

/-! ## Whole runs -/

theorem created_sized (page : Region α) {M N : Nat} (capacity : M < 2147483648)
    (blocks : N < 2147483648) : Sized M N (created page M N) := by
  refine ⟨?_, ?_, ?_, ?_⟩
  · rw [created_blockNum, asInt32_of_mem (by omega) (by omega)]
  · simp [created, createShmPtr, new]
  · rw [created_maxNum, asInt32_of_mem (by omega) (by omega)]
  · simp [created, createShmPtr, new, zeroShm]

theorem finished_creating (page : Region α) (M N : Nat) (first : Op α) :
    (creating page M N first).finished = (created page M N).apply first := by
  have stores : page.writes (createWrites page M N ++ (created page M N).writesOf first) =
      ((created page M N).apply first).shm := by
    rw [Region.writes_append, writes_create, writes_writesOf]
  simp only [finished, creating, stores]

/-- The first initialisation leads to a settled store. -/
theorem creating_sound (page : Region α) {M N : Nat} {first : Op α} {instruments : List Name}
    (capacity : M < 2147483648) (blocks : N < 2147483648)
    (initialises : first.instruments? = some instruments)
    (permitted : (created page M N).Permitted first) :
    Sound M N [] (creating page M N first) := by
  refine ⟨?_, fun updates => ?_, trivial, by simp⟩
  · rw [finished_creating]
    change Settled M N _ (fillAll _ (createWrites page M N ++ (created page M N).writesOf first))
    rw [fillAll_append]
    exact (created_sized page capacity blocks).initialise capacity initialises permitted _
  · cases updates

/-- Whatever the order of the steps, as long as the reader stays away from initialisations
and from labels about to be filled in, a completed `get_shm` has the block length of the
writer and has mapped filled-in records only. -/
theorem attach_accurate (page : Region α) {M N : Nat} {first : Op α} {instruments : List Name}
    (capacity : M < 2147483648) (blocks : 1 ≤ N) (blocks' : N < 2147483648)
    (initialises : first.instruments? = some instruments) (room : instruments.length ≤ M)
    {es : List (AttachEvent α)} {st : Attaching α}
    (run : Run OrderlyStep (creating page M N first) es st) : st.Accurate N es := by
  have permitted : (created page M N).Permitted first := by
    have maxNum := (created_sized page capacity blocks').maxNum
    cases first with
    | setShmAddr =>
        cases initialises
        rw [Permitted, maxNum, created_mdNum]
        omega
    | reInitShm =>
        cases initialises
        rw [Permitted, maxNum]
        omega
    | onRtnData => cases initialises
  have sound : Sound M N es st :=
    run.invariant (creating_sound page capacity blocks' initialises permitted)
      fun sound taken => sound.step capacity blocks' taken
  have reader := sound.reader
  refine ⟨sound.filledIn, ?_, ?_, ?_⟩
  · intro blockNum next index map loading
    rw [loading] at reader
    obtain ⟨rfl, -⟩ := reader
    omega
  · intro blockNum map attached
    rw [attached] at reader
    obtain ⟨rfl, -⟩ := reader
    exact ⟨rfl, by omega⟩
  · intro blockNum map attached
    rw [attached] at reader
    exact reader.2

/-- A registration clears the record after the last one, and labels no other. -/
theorem registration_stores {s : ShmMdPlus α} {c : Call α}
    (absent : s.mInstrumentsAddress.lookup c.key = none) (accepted : (s.call c).2 = true) :
    ∃ rest, s.rtnDataWrites c = .clearIndex s.mNextEmptyMd :: rest ∧
      ∀ i name, .fillInstrumentId i name ∈ rest → i = s.mNextEmptyMd := by
  obtain ⟨i, found, -, -⟩ | ⟨-, -, -, stores⟩ | ⟨refused, -⟩ := s.rtnDataWrites_cases c
  · rw [absent] at found
    cases found
  · refine ⟨_, stores, fun i name listed => ?_⟩
    simp only [List.append_eq, List.mem_append] at listed
    obtain entered | offered := listed
    · simp at entered
      exact entered.1
    · obtain ⟨-, three⟩ | ⟨-, nothing⟩ := offerWrites_cases
        (s.registerInstrument (cStr c.instrumentID)) s.mNextEmptyMd c.newData c.compare
      · rw [three] at offered
        simp at offered
      · rw [nothing] at offered
        cases offered
  · rw [refused] at accepted
    cases accepted

/-- A store with room for three records and one instrument. -/
def spacious : Attaching UInt64 := creating Region.zeroed 3 1 (.setShmAddr [[65]])

/-- An update of its instrument. -/
def known : Call UInt64 := ⟨[65], 7, none⟩

/-- A call with an instrument that is not registered. -/
def other : Call UInt64 := ⟨[66], 9, none⟩

/-- The update has begun. -/
def updatingKnown : Attaching UInt64 := spacious.completed.beginning (.onRtnData known)

/-- The update is done, and the call with the other instrument has begun. -/
def registeringOther : Attaching UInt64 := updatingKnown.completed.beginning (.onRtnData other)

/-- The registration has cleared its record. -/
def clearedOther : Attaching UInt64 :=
  registeringOther.executed [.clearIndex 1] registeringOther.todo.tail

theorem registeringOther_todo :
    registeringOther.todo = .clearIndex 1 :: registeringOther.todo.tail ∧
      ∀ name, .fillInstrumentId 0 name ∉ registeringOther.todo.tail := by
  have absent : updatingKnown.completed.writer.mInstrumentsAddress.lookup other.key = none := by
    decide +kernel
  have accepted : (updatingKnown.completed.writer.call other).2 = true := by decide +kernel
  have next : updatingKnown.completed.writer.mNextEmptyMd = 1 := by decide +kernel
  obtain ⟨rest, stores, labels⟩ := registration_stores absent accepted
  have todo : registeringOther.todo = .clearIndex 1 :: rest := by
    rw [← next]
    exact stores
  rw [todo]
  refine ⟨rfl, fun name listed => ?_⟩
  have own := labels 0 name listed
  omega

/-- The reader passes the instrument while it is updated. -/
theorem run_updatingKnown : ∃ built updated, Run OrderlyStep spacious
    (List.replicate built .wrote ++ [.read, .began (.onRtnData known), .read] ++
      List.replicate updated .wrote) (updatingKnown.completed.reading (.scanning 1 1)) := by
  have opened : OrderlyStep spacious.completed .read (spacious.completed.reading (.scanning 1 0)) :=
    ⟨fun _ => rfl, step_readBuffNum rfl (by decide +kernel)⟩
  have found : spacious.completed.writer.mInstrumentsAddress.lookup known.key = some 0 := by
    decide +kernel
  have inside : 0 < spacious.completed.writer.mNextEmptyMd := by decide +kernel
  have begun : OrderlyStep (spacious.completed.reading (.scanning 1 0)) (.began (.onRtnData known))
      (updatingKnown.reading (.scanning 1 0)) := by
    refine ⟨⟨fun i own => ?_, nofun⟩, .begin rfl⟩
    cases found.symm.trans own
    exact inside
  have passed : OrderlyStep (updatingKnown.reading (.scanning 1 0)) .read
      (updatingKnown.reading (.scanning 1 1)) := ⟨nofun, step_pass (by decide +kernel)⟩
  have reading := ((Run.single opened).snoc begun).snoc passed
  exact ⟨_, _, ((run_completed spacious).trans reading).trans
    (run_completed (updatingKnown.reading (.scanning 1 1)))⟩

/-- It passes the record of the other one when the registration has cleared it. -/
theorem run_registeringOther : ∃ map, Run OrderlyStep
    (updatingKnown.completed.reading (.scanning 1 1))
    [.began (.onRtnData other), .wrote, .read, .read, .mapped 0 true]
    (clearedOther.reading (.loading 1 2 1 map)) := by
  have absent : updatingKnown.completed.writer.mInstrumentsAddress.lookup other.key = none := by
    decide +kernel
  have begun : OrderlyStep (updatingKnown.completed.reading (.scanning 1 1))
      (.began (.onRtnData other)) (registeringOther.reading (.scanning 1 1)) := by
    refine ⟨⟨fun i own => ?_, nofun⟩, .begin rfl⟩
    cases absent.symm.trans own
  have cleared : OrderlyStep (registeringOther.reading (.scanning 1 1)) .wrote
      (clearedOther.reading (.scanning 1 1)) := ⟨trivial, .write registeringOther_todo.1⟩
  have passed : OrderlyStep (clearedOther.reading (.scanning 1 1)) .read
      (clearedOther.reading (.scanning 1 2)) := ⟨nofun, step_pass (by decide +kernel)⟩
  have stopped : OrderlyStep (clearedOther.reading (.scanning 1 2)) .read
      (clearedOther.reading (.loading 1 2 0 ∅)) := ⟨nofun, step_stop (by decide +kernel)⟩
  have loaded : OrderlyStep (clearedOther.reading (.loading 1 2 0 ∅))
      (.mapped 0 (clearedOther.filled 0)) (clearedOther.reading (.loading 1 2 1 _)) :=
    ⟨⟨nofun, registeringOther_todo.2⟩, step_load (Or.inl rfl) (by decide) (by decide)⟩
  rw [show clearedOther.filled 0 = true by decide +kernel] at loaded
  exact ⟨_, .head begun <| .head cleared <| .head passed <| .head stopped <| .single loaded⟩

/-- It maps that record when the registration is done. -/
theorem run_clearedOther (map : AddressMap) : ∃ registered map', Run OrderlyStep
    (clearedOther.reading (.loading 1 2 1 map))
    (List.replicate registered .wrote ++ [.mapped 1 true, .read])
    (clearedOther.completed.reading (.attached 1 map')) := by
  have meets : clearedOther.completed.Meets 1 1 := by decide +kernel
  have loaded : OrderlyStep (clearedOther.completed.reading (.loading 1 2 1 map))
      (.mapped 1 (clearedOther.completed.filled 1))
      (clearedOther.completed.reading (.loading 1 2 2 _)) :=
    ⟨orderly_mapped rfl _ _, step_load meets (by decide) (by decide)⟩
  rw [show clearedOther.completed.filled 1 = true by decide +kernel] at loaded
  have finished (map : AddressMap) : OrderlyStep
      (clearedOther.completed.reading (.loading 1 2 2 map)) .read
      (clearedOther.completed.reading (.attached 1 map)) := ⟨orderly_read rfl _, .finish rfl⟩
  exact ⟨_, _, (run_completed (clearedOther.reading (.loading 1 2 1 map))).trans
    (.head loaded (.single (finished _)))⟩

/-- An update and a registration while the reader attaches. -/
theorem attach_accurate_one : ∃ built updated registered st map,
    let es : List (AttachEvent UInt64) :=
      List.replicate built .wrote ++ [.read, .began (.onRtnData known), .read] ++
        List.replicate updated .wrote ++
        ([.began (.onRtnData other), .wrote, .read, .read, .mapped 0 true] ++
          (List.replicate registered .wrote ++ [.mapped 1 true, .read]))
    Run OrderlyStep spacious es st ∧ st.reader = .attached 1 map ∧ st.Accurate 1 es := by
  obtain ⟨built, updated, first⟩ := run_updatingKnown
  obtain ⟨map, second⟩ := run_registeringOther
  obtain ⟨registered, map', third⟩ := run_clearedOther map
  have run := first.trans (second.trans third)
  exact ⟨built, updated, registered, _, map', run, rfl, attach_accurate Region.zeroed (by decide)
    (by decide) (by decide) rfl (by decide) run⟩

/-! ## Other orders -/

/-- A store with room for two records and one instrument. -/
def one : Attaching UInt64 := creating Region.zeroed 2 1 (.setShmAddr [[65]])

/-- The store `one` when `create_shm_ptr` is done. -/
def cleared : Attaching UInt64 :=
  one.executed (createWrites Region.zeroed 2 1)
    ((created Region.zeroed 2 1).writesOf (.setShmAddr [[65]]))

/-- A reader may pass both cleared records before the instrument is entered. -/
theorem map_cleared : ∃ es st map, Run Step one es st ∧ st.reader = .attached 1 map ∧
    AttachEvent.mapped 1 false ∈ es := by
  have created : Run OrderlyStep one _ cleared := run_executed one rfl
  have opened : Step cleared .read (cleared.reading (.scanning 1 0)) :=
    step_readBuffNum rfl (by decide +kernel)
  have first : Step (cleared.reading (.scanning 1 0)) .read (cleared.reading (.scanning 1 1)) :=
    step_pass (by decide +kernel)
  have second : Step (cleared.reading (.scanning 1 1)) .read (cleared.reading (.scanning 1 2)) :=
    step_pass (by decide +kernel)
  have early := (((created.map (f := id) And.right).snoc opened).snoc first).snoc second
  have entered : Run OrderlyStep (cleared.reading (.scanning 1 2)) _
      (cleared.completed.reading (.scanning 1 2)) := run_completed _
  obtain ⟨es, rest, mapped⟩ := @run_rest _ _ cleared.completed 1 2 2 1 rfl (by decide +kernel)
    (by decide) (by decide +kernel)
  refine ⟨_, _, _, early.trans ((entered.trans rest).map (f := id) And.right), rfl, ?_⟩
  have unlabelled : cleared.completed.filled 1 = false := by decide +kernel
  have late := mapped 1 (by decide)
  rw [unlabelled] at late
  simp [late]

/-- A store with room for one record and no instruments. -/
def blank : Attaching UInt64 := creating Region.zeroed 1 1 (.setShmAddr [])

/-- A reader may read the header before `md_buff_num` is stored. -/
theorem attach_blank : ∃ es st map, Run Step blank es st ∧ st.reader = .attached 0 map := by
  have opened : Step blank .read (blank.reading (.scanning 0 0)) :=
    step_readBuffNum rfl (by decide +kernel)
  have built : Run OrderlyStep (blank.reading (.scanning 0 0)) _
      (blank.completed.reading (.scanning 0 0)) := run_completed _
  have stopped : Step (blank.completed.reading (.scanning 0 0)) .read
      (blank.completed.reading (.loading 0 0 0 ∅)) := step_stop (by decide +kernel)
  have run := (Run.head opened (built.map (f := id) And.right)).snoc stopped
  exact ⟨_, _, _, run.snoc (.finish rfl), rfl⟩

/-- A store with room for two records and no instruments. -/
def vacant : Attaching UInt64 := creating Region.zeroed 2 1 (.setShmAddr [])

/-- A call with an instrument that is not registered. -/
def unregistered : Call UInt64 := ⟨[65], 7, none⟩

/-- The registration of its instrument has cleared `current_index`, and nothing else yet. -/
def registering : Attaching UInt64 :=
  let st := vacant.completed.beginning (.onRtnData unregistered)
  st.executed [.clearIndex 0] st.todo.tail

theorem run_registering : ∃ es, Run Step vacant es registering := by
  have begun : Step vacant.completed (.began (.onRtnData unregistered)) _ := .begin rfl
  have absent : vacant.completed.writer.mInstrumentsAddress.lookup unregistered.key = none := by
    decide +kernel
  have accepted : (vacant.completed.writer.call unregistered).2 = true := by decide +kernel
  have start : vacant.completed.writer.mNextEmptyMd = 0 := by decide +kernel
  have pending : (vacant.completed.beginning (.onRtnData unregistered)).todo = .clearIndex 0 ::
      (vacant.completed.beginning (.onRtnData unregistered)).todo.tail := by
    obtain ⟨rest, stores, -⟩ := registration_stores absent accepted
    rw [start] at stores
    change vacant.completed.writer.rtnDataWrites unregistered =
      .clearIndex 0 :: (vacant.completed.writer.rtnDataWrites unregistered).tail
    rw [stores]
    rfl
  exact ⟨_, (((run_completed vacant).map (f := id) And.right).snoc begun).snoc (.write pending)⟩

/-- A registration makes its record live before it labels it. -/
theorem map_registering : ∃ es st map, Run Step vacant es st ∧ st.reader = .attached 1 map ∧
    AttachEvent.mapped 0 false ∈ es := by
  obtain ⟨es, half⟩ := run_registering
  have opened : Step registering .read (registering.reading (.scanning 1 0)) :=
    step_readBuffNum rfl (by decide +kernel)
  have passed : Step (registering.reading (.scanning 1 0)) .read
      (registering.reading (.scanning 1 1)) := step_pass (by decide +kernel)
  have stopped : Step (registering.reading (.scanning 1 1)) .read
      (registering.reading (.loading 1 1 0 ∅)) := step_stop (by decide +kernel)
  have loaded : Step (registering.reading (.loading 1 1 0 ∅)) _ _ :=
    step_load (Or.inl rfl) (by decide) (by decide)
  have run := (((half.snoc opened).snoc passed).snoc stopped).snoc loaded
  refine ⟨_, _, _, run.snoc (.finish rfl), rfl, ?_⟩
  have unlabelled : registering.filled 0 = false := by decide +kernel
  simp [unlabelled]

/-- A store with two instruments. -/
def two : Attaching UInt64 := creating Region.zeroed 2 1 (.setShmAddr [[65], [66]])

/-- It is initialised again with the first of them only. -/
def shrunk : Attaching UInt64 := (two.completed.beginning (.reInitShm [[65]])).completed

/-- Then the other one is updated. -/
def revived : Attaching UInt64 := (shrunk.beginning (.onRtnData ⟨[66], 7, none⟩)).completed

/-- An instrument that an initialisation leaves out keeps its entry in the address map. An
update makes its record live again, when the `memset` of `re_init_shm` has cleared the
label. -/
theorem map_revived : ∃ es st map, Run Step two es st ∧ st.reader = .attached 1 map ∧
    AttachEvent.mapped 1 false ∈ es := by
  have whole : ∀ st : Attaching UInt64, Run Step st _ st.completed :=
    fun st => (run_completed st).map (f := id) And.right
  have again : Step two.completed (.began (.reInitShm [[65]])) _ := .begin rfl
  have update : Step shrunk (.began (.onRtnData ⟨[66], 7, none⟩)) _ := .begin rfl
  have run : Run Step two _ revived :=
    (((whole two).snoc again).trans (whole _)).trans (.head update (whole _))
  have opened : Step revived .read (revived.reading (.scanning 1 0)) :=
    step_readBuffNum rfl (by decide +kernel)
  obtain ⟨es, rest, mapped⟩ := @run_rest _ _ revived 1 2 0 3 rfl (by decide +kernel)
    (by decide) (by decide +kernel)
  refine ⟨_, _, _, (run.snoc opened).trans (rest.map (f := id) And.right), rfl, ?_⟩
  have unlabelled : revived.filled 1 = false := by decide +kernel
  have late := mapped 1 (by decide)
  rw [unlabelled] at late
  simp [late]

/-- Nothing keeps a reader away from a store that is not ready. It maps unlabelled records
when it starts before the instruments are entered, while one is registered, or after the
update of one that was left out, and its block length is zero when it starts before
`md_buff_num` is stored. -/
theorem attach_inaccurate :
    (∃ es st map, Run Step one es st ∧ st.reader = .attached 1 map ∧
      AttachEvent.mapped 1 false ∈ es) ∧
    (∃ es st map, Run Step blank es st ∧ st.reader = .attached 0 map) ∧
    (∃ es st map, Run Step vacant es st ∧ st.reader = .attached 1 map ∧
      AttachEvent.mapped 0 false ∈ es) ∧
    ∃ es st map, Run Step two es st ∧ st.reader = .attached 1 map ∧
      AttachEvent.mapped 1 false ∈ es :=
  ⟨map_cleared, attach_blank, map_registering, map_revived⟩

end RazorCrypto.Shm.ShmMdPlus.Attaching
