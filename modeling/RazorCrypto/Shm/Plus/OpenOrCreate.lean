import RazorCrypto.Foundation.Transition
import RazorCrypto.Shm.Plus.Attach

/-!
# Opening a store or creating it

`open_or_create` makes a store for the requested instruments if the file of its shared memory
does not exist. If the file exists, it attaches to it as a reader does and does not look at
the requested instruments: it finds those that the file was created for, and as its own
counters stay zero, `on_rtn_data` registers no others.

The record behind the last one of the file is taken to hold the end marker that its creator
wrote there, although it lies behind the mapped memory.
-/

universe u

namespace RazorCrypto.Shm

open MachineInt Transition

/-- A file of shared memory: the region it maps and its `st_size`. -/
structure ShmFile (α : Type u) where
  region : Region α
  size : Nat

/-- The arguments of `open_or_create`: names that fit in `instrument_id`, with different
hashes, and the number of slots of a record. -/
structure Request where
  instruments : List Name
  mdBuffNum : Nat
  short : ∀ id ∈ instruments, (∀ c ∈ id, c ≠ 0) ∧ id.length ≤ 15
  distinct : (instruments.map comHash).Nodup
  count : instruments.length < 2147483648
  blocks : 1 ≤ mdBuffNum
  blocks' : mdBuffNum < 2147483648

/-- What a process does with a store: it calls `open_or_create` and then `on_rtn_data`. -/
structure Session (α : Type u) extends Request where
  calls : List (Call α)

variable {α : Type u} [MarketData α]

namespace ShmMdPlus

/-- `open_or_create` in shared-memory mode, with the file if it exists and the memory that
`load_page_buffer` returns for a new one. -/
def openOrCreate (s : ShmMdPlus α) (file : Option (ShmFile α)) (page : Region α)
    (instruments : List Name) (mdBuffNum fuel : Nat) : Option (ShmMdPlus α) :=
  match file with
  | none =>
    let s := s.createShmPtr page (asUInt32 instruments.length) mdBuffNum
    some (s.setShmAddr instruments true)
  | some file => s.getShm file.region file.size fuel

/-- The file that an object leaves behind. -/
def file (s : ShmMdPlus α) : ShmFile α := ⟨s.shm, s.mShmSize⟩

/-- One session of a new object, from one state of the file to the next. -/
def SessionStep (before : Option (ShmFile α)) (e : Session α) (after : Option (ShmFile α)) :
    Prop :=
  ∃ page fuel s, (new page).openOrCreate before page e.instruments e.mdBuffNum fuel = some s ∧
    after = some (s.run e.calls).1.file

/-- An instrument that the store knows and takes updates of. -/
def Usable (s : ShmMdPlus α) (id : Name) : Prop :=
  s.subMd id ≠ none ∧ ∀ newData, (s.onRtnData id newData none).2 = true

/-! ## Objects without room -/

/-- An attached object whose `on_rtn_data` registers no instrument. -/
structure Full (s : ShmMdPlus α) : Prop where
  attached : s.mShmHead = true
  noRoom : ¬s.mMdNum < s.mMaxInstrumentNum - 1

/-- The object with the counters of one that created the store for `M` instruments. -/
def counted (s : ShmMdPlus α) (M : Nat) : ShmMdPlus α :=
  { s with mMaxInstrumentNum := M, mMdNum := M }

variable {s : ShmMdPlus α}

theorem Full.onRtnData_eq (full : s.Full) (instrumentID : Name) (newData : α)
    (compare : Option (α → α → Bool)) :
    s.onRtnData instrumentID newData compare =
      match s.mInstrumentsAddress.lookup (comHash (cStr instrumentID)) with
      | some i => s.offerUpdate i newData compare
      | none => (s, false) := by
  obtain ⟨i, found, step⟩ | ⟨-, free, -⟩ | ⟨absent, -, step⟩ :=
    onRtnData_cases s full.attached instrumentID newData compare
  · rw [step, found]
  · exact absurd free full.noRoom
  · rw [step, absent]

omit [MarketData α] in
theorem Full.offerUpdate (full : s.Full) (i : Nat) (newData : α)
    (compare : Option (α → α → Bool)) : (s.offerUpdate i newData compare).1.Full := by
  obtain accepted | declined := offerUpdate_cases s i newData compare
  · rw [accepted]
    exact ⟨full.attached, full.noRoom⟩
  · rw [declined]
    exact full

theorem Full.onRtnData (full : s.Full) (instrumentID : Name) (newData : α)
    (compare : Option (α → α → Bool)) : (s.onRtnData instrumentID newData compare).1.Full := by
  rw [full.onRtnData_eq]
  split
  · exact full.offerUpdate _ newData compare
  · exact full

omit [MarketData α] in
theorem Full.counted (full : s.Full) (M : Nat) : (s.counted M).Full := by
  refine ⟨full.attached, ?_⟩
  show ¬(M : Int) < M - 1
  omega

omit [MarketData α] in
theorem offerUpdate_counted (s : ShmMdPlus α) (M i : Nat) (newData : α)
    (compare : Option (α → α → Bool)) :
    (s.counted M).offerUpdate i newData compare =
      ((s.offerUpdate i newData compare).1.counted M,
        (s.offerUpdate i newData compare).2) := by
  cases compare with
  | none => rfl
  | some compare =>
      simp only [ShmMdPlus.offerUpdate, ShmMdPlus.counted]
      split
      · next taken => exact if_pos taken
      · next declined => exact if_neg declined

/-- The updates that a full object takes do not depend on its counters. -/
theorem Full.onRtnData_counted (full : s.Full) (M : Nat) (instrumentID : Name) (newData : α)
    (compare : Option (α → α → Bool)) :
    (s.counted M).onRtnData instrumentID newData compare =
      ((s.onRtnData instrumentID newData compare).1.counted M,
        (s.onRtnData instrumentID newData compare).2) := by
  rw [(full.counted M).onRtnData_eq, full.onRtnData_eq]
  show (match s.mInstrumentsAddress.lookup _ with | some i => _ | none => _) = _
  split
  · exact offerUpdate_counted s M _ newData compare
  · rfl

theorem Full.run (full : s.Full) (M : Nat) (calls : List (Call α)) :
    (s.run calls).1.Full ∧
      (s.counted M).run calls = ((s.run calls).1.counted M, (s.run calls).2) := by
  induction calls using List.reverseRecOn with
  | nil => exact ⟨full, rfl⟩
  | append_singleton calls c ih =>
      obtain ⟨full', same⟩ := ih
      rw [run_concat, run_concat, same]
      refine ⟨full'.onRtnData c.instrumentID c.newData c.compare, ?_⟩
      simp only [logged, call, full'.onRtnData_counted]
      rfl

/-- A store without room for further instruments keeps its names. -/
theorem Represents.run_names {M N : Nat} {b : Book comHash α} (h : Represents M N b s)
    (complete : b.names.length = M) (calls : List (Call α)) :
    ∃ b' : Book comHash α, Represents M N b' (s.run calls).1 ∧ b'.names = b.names := by
  induction calls using List.reverseRecOn with
  | nil => exact ⟨b, h, rfl⟩
  | append_singleton calls c ih =>
      obtain ⟨b', represented, names⟩ := ih
      obtain ⟨b'', offer, represented'⟩ :=
        represented.onRtnData c.instrumentID c.newData c.compare
      refine ⟨b'', ?_, ?_⟩
      · rw [run_concat]
        exact represented'
      · have noRoom : ¬b'.names.length + 1 < M := by
          rw [names, complete]
          omega
        rw [offer.names_eq, Book.enlist, if_neg fun free => noRoom free.2, names]

/-! ## The file -/

/-- The file holds a store that was created for these instruments and no others. -/
def Stores (names : List Name) (file : ShmFile α) : Prop :=
  ∃ (N : Nat) (b : Book comHash α) (t : ShmMdPlus α), N < 2147483648 ∧
    Represents names.length N b t ∧ b.names = names ∧ t.shm = file.region

/-- The object keeps a store of these instruments, as its creator would. -/
structure Opened (names : List Name) (s : ShmMdPlus α) : Prop extends Full s where
  kept : ∃ (N : Nat) (b : Book comHash α), N < 2147483648 ∧
    Represents names.length N b (s.counted names.length) ∧ b.names = names

variable {names : List Name}

theorem Opened.run (opened : Opened names s) (calls : List (Call α)) :
    Opened names (s.run calls).1 := by
  obtain ⟨N, b, blocks, represented, listed⟩ := opened.kept
  obtain ⟨full, same⟩ := opened.toFull.run names.length calls
  obtain ⟨b', represented', listed'⟩ := represented.run_names (by rw [listed]) calls
  rw [same] at represented'
  exact ⟨full, N, b', blocks, represented', listed'.trans listed⟩

theorem Opened.stores (opened : Opened names s) : Stores names s.file := by
  obtain ⟨N, b, blocks, represented, listed⟩ := opened.kept
  exact ⟨N, b, s.counted names.length, blocks, represented, listed, rfl⟩

/-- An object takes updates of exactly the instruments that its store was created for. -/
theorem Opened.usable_iff (opened : Opened names s) {id : Name} (nonzero : ∀ c ∈ id, c ≠ 0) :
    s.Usable id ↔ comHash id ∈ names.map comHash := by
  obtain ⟨N, b, -, represented, rfl⟩ := opened.kept
  have absent : s.mInstrumentsAddress.lookup (comHash id) = none ↔
      comHash id ∉ b.names.map comHash := represented.lookup_eq_none_iff
  have subMd : s.subMd id = s.mInstrumentsAddress.lookup (comHash id) := by
    rw [ShmMdPlus.subMd, if_neg (by simp [opened.attached]), cStr_of_ne_zero nonzero]
  rw [Usable, subMd, ne_eq, absent, not_not]
  refine ⟨And.left, fun listed => ⟨listed, fun newData => ?_⟩⟩
  rw [opened.toFull.onRtnData_eq, cStr_of_ne_zero nonzero]
  cases found : s.mInstrumentsAddress.lookup (comHash id) with
  | none => exact absurd listed (absent.mp found)
  | some i => rfl

/-- A new object that attaches to the file keeps the store of the instruments it was created
for. -/
theorem Stores.opened {file : ShmFile α} (stores : Stores names file)
    (short : ∀ id ∈ names, (∀ c ∈ id, c ≠ 0) ∧ id.length ≤ 15) {page : Region α} {fuel : Nat}
    (attached : (new page).getShm file.region file.size fuel = some s) : Opened names s := by
  obtain ⟨N, b, t, blocks, represented, rfl, region⟩ := stores
  obtain ⟨next, found, rfl⟩ := Option.map_eq_some_iff.mp attached
  rw [← region] at found ⊢
  have stop := represented.scanEnd b.names.length.lt_succ_self
  obtain rfl := scanEnd_unique found stop
  obtain ⟨reader, same, reads⟩ :=
    represented.getShm blocks page file.size b.names.length.lt_succ_self
  rw [ShmMdPlus.getShm, stop, Option.map_some, Option.some_inj] at same
  subst same
  have address := represented.lookup_of_stored reads fun name listed => by
    rw [stored_of_short (short name listed).1 (short name listed).2]
  have noRoom : ¬(0 : Int) < 0 - 1 := by decide
  refine ⟨⟨rfl, noRoom⟩, N, b, blocks, ?_, rfl⟩
  exact {
    next := rfl
    lookup := fun key i => (congrArg (· = some i) (address key)).to_iff.trans
      (represented.lookup key i)
    label := represented.label, live := represented.live, attached := rfl
    blockNum := reads.blockNum, maxNum := rfl, capacity := represented.capacity
    room := Nat.le_refl _, count := rfl, mdNum := represented.mdNum
    mdBuffNum := represented.mdBuffNum, keeps := represented.keeps
    total := represented.total, marked := represented.marked }

/-- A new object that finds no file creates the store of the requested instruments. -/
theorem opened_created (page : Region α) (request : Request) :
    Opened request.instruments
      (start page request.instruments.length request.mdBuffNum request.instruments) := by
  have represented := start_represents page request.count request.blocks' (Nat.le_refl _)
    request.distinct
  generalize start page _ _ request.instruments = s at represented
  have maxNum := represented.maxNum
  have count : s.mMdNum = request.instruments.length := represented.count
  have same : s.counted request.instruments.length = s := by
    cases s
    simp_all [counted]
  refine ⟨⟨represented.attached, ?_⟩, request.mdBuffNum,
    Book.opened request.instruments request.distinct, request.blocks', ?_, rfl⟩
  · rw [count, maxNum]
    omega
  · rwa [same]

theorem openOrCreate_none (page : Region α) (request : Request) (fuel : Nat) :
    (new page).openOrCreate none page request.instruments request.mdBuffNum fuel =
      some (start page request.instruments.length request.mdBuffNum request.instruments) := by
  have count := request.count
  rw [openOrCreate, asUInt32_natCast, Nat.mod_eq_of_lt (by omega)]
  rfl

/-- What the sessions so far have made of the file: it is absent, or holds the store of the
instruments of the first session. -/
def Created (es : List (Session α)) : Option (ShmFile α) → Prop
  | none => es = []
  | some file => ∃ first, es.head? = some first ∧ Stores first.instruments file

/-- Whatever the file, `open_or_create` keeps the store that the file was created for. -/
theorem Created.opened {es : List (Session α)} {file : Option (ShmFile α)}
    (created : Created es file) {page : Region α} {request : Request} {fuel : Nat}
    (attached : (new page).openOrCreate file page request.instruments request.mdBuffNum fuel =
      some s) :
    Opened (es.head?.elim request.instruments fun first => first.instruments) s := by
  cases file with
  | none =>
      obtain rfl := created
      rw [openOrCreate_none, Option.some_inj] at attached
      exact attached ▸ opened_created page request
  | some file =>
      obtain ⟨first, head, stores⟩ := created
      rw [head]
      exact stores.opened first.short attached

theorem Created.step {es : List (Session α)} {before after : Option (ShmFile α)}
    {e : Session α} (created : Created es before) (step : SessionStep before e after) :
    Created (es ++ [e]) after := by
  obtain ⟨page, fuel, s, attached, rfl⟩ := step
  have stores := ((created.opened attached).run e.calls).stores
  rw [Created, List.head?_append]
  cases head : es.head? with
  | none =>
      rw [head] at stores
      exact ⟨e, rfl, stores⟩
  | some first =>
      rw [head] at stores
      exact ⟨first, rfl, stores⟩

/-- After any sessions, `open_or_create` returns an object that keeps the store that the file
was created for, or that of the requested instruments. -/
theorem Created.returns {es : List (Session α)} {file : Option (ShmFile α)}
    (created : Created es file) (page : Region α) (request : Request) {fuel : Nat}
    (enough : ∀ first ∈ es.head?, first.instruments.length < fuel) :
    ∃ s, (new page).openOrCreate file page request.instruments request.mdBuffNum fuel =
      some s := by
  cases file with
  | none => exact ⟨_, openOrCreate_none page request fuel⟩
  | some file =>
      obtain ⟨first, head, N, b, t, blocks, represented, listed, region⟩ := created
      have inTime : b.names.length < fuel := by
        rw [listed]
        exact enough first head
      obtain ⟨reader, attached, -⟩ := represented.getShm blocks page file.size inTime
      rw [region] at attached
      exact ⟨reader, attached⟩

/-- After any sessions: `open_or_create` returns an object that takes updates of all requested
instruments, then and after any calls, exactly if there is no file yet or their hashes are
among those of the instruments of the session that created it. -/
theorem openOrCreate_usable_iff {es : List (Session α)} {file : Option (ShmFile α)}
    (past : Run SessionStep none es file) (page : Region α) (request : Request) {fuel : Nat}
    (enough : ∀ first ∈ es.head?, first.instruments.length < fuel) :
    ∃ s, (new page).openOrCreate file page request.instruments request.mdBuffNum fuel =
        some s ∧
      ∀ calls, (∀ id ∈ request.instruments, (s.run calls).1.Usable id) ↔
        ∀ first ∈ es.head?, ∀ id ∈ request.instruments,
          comHash id ∈ first.instruments.map comHash := by
  have created : Created es file := past.invariant rfl Created.step
  obtain ⟨s, attached⟩ := created.returns page request enough
  refine ⟨s, attached, fun calls => ?_⟩
  have opened := (created.opened attached).run calls
  have usable : (∀ id ∈ request.instruments, (s.run calls).1.Usable id) ↔
      ∀ id ∈ request.instruments, comHash id ∈
        (es.head?.elim request.instruments fun first => first.instruments).map comHash :=
    forall₂_congr fun id requested => opened.usable_iff (request.short id requested).1
  rw [usable]
  cases es.head? with
  | none =>
      refine iff_of_true (fun id requested => List.mem_map_of_mem requested) ?_
      intro first absent
      cases absent
  | some first => simp

/-- A request for a single instrument. -/
def requestOf (c : UInt8) (nonzero : c ≠ 0) : Request where
  instruments := [[c]]
  mdBuffNum := 1
  short := by simp [nonzero]
  distinct := List.nodup_singleton _
  count := by simp
  blocks := Nat.one_pos
  blocks' := by decide

/-- The file of a session that creates a store for the instrument `A`. -/
def fileOfA : ShmFile UInt64 := (start Region.zeroed 1 1 [[65]]).file

def sessionOfA : Session UInt64 := { requestOf 65 (by decide) with calls := [] }

theorem run_sessionOfA : Run SessionStep none [sessionOfA] (some fileOfA) :=
  .single ⟨Region.zeroed, 0, start Region.zeroed 1 1 [[65]],
    openOrCreate_none Region.zeroed (requestOf 65 (by decide)) 0, rfl⟩

/-- Opened again for the same instrument, which is there. -/
theorem openOrCreate_usable_iff_same :
    ∃ s, (new Region.zeroed).openOrCreate (some fileOfA) Region.zeroed [[65]] 1 2 = some s ∧
      ∀ calls, (s.run calls).1.Usable [65] := by
  have enough : ∀ first ∈ [sessionOfA].head?, first.instruments.length < 2 := by
    intro first head
    obtain rfl := Option.some.inj head
    decide
  obtain ⟨s, opened, usable⟩ := openOrCreate_usable_iff run_sessionOfA Region.zeroed
    (requestOf 65 (by decide)) enough
  refine ⟨s, opened, fun calls => (usable calls).mpr ?_ [65] (List.mem_singleton_self _)⟩
  intro first head id requested
  obtain rfl := Option.some.inj head
  exact List.mem_map_of_mem requested

/-- Opened again for the instrument `B`, which it neither finds nor registers. -/
theorem openOrCreate_other :
    Run SessionStep none [sessionOfA] (some fileOfA) ∧
      ∃ s, (new Region.zeroed).openOrCreate (some fileOfA) Region.zeroed [[66]] 1 2 = some s ∧
        s.subMd [66] = none ∧ (s.onRtnData [66] 7 none).2 = false ∧ ¬s.Usable [66] := by
  have stops : scanEnd fileOfA.region.record 2 0 = some 1 := by decide +kernel
  have missed : ((((new Region.zeroed).attach fileOfA.region fileOfA.size
      1).loadInstrumentsAddresses).subMd [66]) = none := by decide +kernel
  refine ⟨run_sessionOfA, _, ?_, missed, by decide +kernel, fun usable => usable.1 missed⟩
  rw [openOrCreate, getShm, stops, Option.map_some]

end ShmMdPlus

end RazorCrypto.Shm
