import RazorCrypto.Foundation.Book
import RazorCrypto.Foundation.SlotRing
import RazorCrypto.Shm.Plus.Addresses

/-!
# The store refines a book of updates

`Represents M N b s` relates a store created for `M` instruments and blocks of `N`
slots to a book of updates: the address map finds the record of each listed key at its
place in the book, the records keep the recent updates in their rings, the private and
the shared counters all count the listed names, `update_num` counts the updates, and
the records that are free carry an end marker. `Represents.onRtnData` shows that a
call of `on_rtn_data` is one offer to the book.
-/

universe u

namespace RazorCrypto.Shm

open MachineInt

variable {α : Type u} [MarketData α]

namespace MdHeadPlus

variable {r : MdHeadPlus α} {N k : Nat} {us : List α}

omit [MarketData α] in
theorem nextOffset_eq (index : r.currentIndex = k) : r.nextOffset N = k % N := by
  rw [nextOffset, index, ← Int.ofNat_tmod, Int.toNat_natCast]

omit [MarketData α] in
theorem curOffset_eq (index : r.currentIndex = k) (pos : 1 ≤ k) :
    r.curOffset N = (k - 1) % N := by
  have before : r.currentIndex - 1 = ((k - 1 : Nat) : Int) := by omega
  rw [curOffset, before, ← Int.ofNat_tmod]
  simp only [Int.toNat_natCast]
  exact if_neg (by omega)

omit [MarketData α] in
/-- `get_cur` leads to the slot of `get_cur_md`, once there is an update. -/
theorem getCur_eq (index : r.currentIndex = k) (pos : 1 ≤ k) (len : r.bufferLen = N) :
    r.getCur = some (r.curOffset N) := by
  have before : r.currentIndex - 1 = ((k - 1 : Nat) : Int) := by omega
  rw [getCur, if_pos (by omega), curOffset_eq index pos, before, len, ← Int.ofNat_tmod,
    Int.toNat_natCast]

omit [MarketData α] in
/-- `get_cur_md` returns the update that was just stored. -/
theorem store_getCurMd {blockNum : Int} (live : 0 ≤ r.currentIndex) (newData : α) :
    (r.store blockNum newData).getCurMd blockNum = newData := by
  have offset : (r.store blockNum newData).curOffset blockNum = r.nextOffset blockNum := by
    have before : r.currentIndex + 1 - 1 = r.currentIndex := by omega
    have nonneg := Int.tmod_nonneg blockNum live
    dsimp only [curOffset, nextOffset, store]
    rw [before, if_neg (by omega)]
  rw [MdHeadPlus.getCurMd, offset]
  exact Function.update_self ..

/-- A record that took the updates `us`: it counts them, its slots hold the last `N` of
them, and slots that were never written are still zero. -/
structure Keeps (N : Nat) (us : List α) (r : MdHeadPlus α) : Prop where
  index : r.currentIndex = us.length
  slots : SlotRing.Holds N 0 r.dat us (us.length - N)
  fresh : ∀ j, us.length ≤ j → j < N → r.dat j = 0

theorem Keeps.labelled (N : Nat) (instrument : Name) :
    Keeps N [] (MdHeadPlus.labelled instrument N : MdHeadPlus α) :=
  ⟨rfl, SlotRing.Holds.nil, fun _ _ _ => rfl⟩

theorem Keeps.store (h : Keeps N us r) (newData : α) :
    Keeps N (us ++ [newData]) (r.store N newData) := by
  have offset : r.nextOffset N = us.length % N := nextOffset_eq h.index
  refine ⟨?_, ?_, ?_⟩
  · rw [List.length_append, List.length_singleton, Nat.cast_add, ← h.index]
    rfl
  · change SlotRing.Holds N 0 (Function.update r.dat (r.nextOffset N) newData) _ _
    rw [List.length_append, List.length_singleton, offset]
    exact h.slots.push newData
  · intro j low high
    rw [List.length_append, List.length_singleton] at low
    have ne : j ≠ r.nextOffset N := by
      rw [offset, Nat.mod_eq_of_lt (by omega)]
      omega
    change Function.update r.dat (r.nextOffset N) newData j = 0
    rw [Function.update_of_ne ne]
    exact h.fresh j (by omega) high

/-- `get_cur_md` returns the newest update. -/
theorem Keeps.getCurMd (h : Keeps N us r) (pos : 0 < N) (nonempty : us ≠ []) :
    r.getCurMd N = us.getLast nonempty := by
  have len : 1 ≤ us.length := List.length_pos_iff.mpr nonempty
  rw [MdHeadPlus.getCurMd, curOffset_eq h.index len]
  exact h.slots.last nonempty (by omega)

end MdHeadPlus

namespace ShmMdPlus

/-- The store `s`, created for `M` instruments and blocks of `N` slots, keeps the book `b`. -/
structure Represents (M N : Nat) (b : Book comHash α) (s : ShmMdPlus α) : Prop
    extends Addresses s b.names where
  attached : s.mShmHead = true
  blockNum : s.mdBlockNum = N
  maxNum : s.mMaxInstrumentNum = M
  capacity : M < 2147483648
  room : b.names.length ≤ M
  count : s.mMdNum = b.names.length
  mdNum : s.shm.head.mdNum = b.names.length
  mdBuffNum : s.shm.head.mdBuffNum = N
  keeps : ∀ i (inside : i < b.names.length),
    MdHeadPlus.Keeps N (b.updates (comHash b.names[i])) (s.shm.record i)
  total : s.shm.head.updateNum = b.total
  marked : ∀ i, b.names.length ≤ i → i ≤ M → (s.shm.record i).currentIndex = -1

namespace Represents

variable {M N : Nat} {b : Book comHash α} {s : ShmMdPlus α} {key : UInt64} {i : Nat}

theorem keeps_lookup (h : Represents M N b s)
    (found : s.mInstrumentsAddress.lookup key = some i) :
    MdHeadPlus.Keeps N (b.updates key) (s.shm.record i) := by
  obtain ⟨inside, rfl⟩ := h.of_lookup found
  exact h.keeps i inside

/-- An accepted update of a listed instrument. -/
theorem acceptUpdate (h : Represents M N b s)
    (found : s.mInstrumentsAddress.lookup key = some i)
    (listed : key ∈ b.names.map comHash) (newData : α) :
    Represents M N (b.accept key listed newData) (s.acceptUpdate i newData) := by
  obtain ⟨inside, hash⟩ := h.of_lookup found
  have self : (s.acceptUpdate i newData).shm.record i = (s.shm.record i).store N newData := by
    rw [← h.blockNum]
    exact Function.update_self ..
  refine {
    h.toAddresses.acceptUpdate i newData with
    attached := h.attached, blockNum := h.blockNum, maxNum := h.maxNum
    capacity := h.capacity, room := h.room, count := h.count
    mdNum := h.mdNum, mdBuffNum := h.mdBuffNum, keeps := ?_, total := ?_, marked := ?_ }
  · change ∀ j (_ : j < b.names.length), MdHeadPlus.Keeps N
      (Function.update b.updates key (b.updates key ++ [newData]) (comHash b.names[j])) _
    intro j listed'
    by_cases same : j = i
    · subst same
      rw [self, hash, Function.update_self]
      have keeps := h.keeps j inside
      rw [hash] at keeps
      exact keeps.store newData
    · have ne : comHash b.names[j] ≠ key := by
        intro equal
        have found' := h.lookup_getElem listed'
        rw [equal, found] at found'
        exact same (Option.some.inj found').symm
      rw [acceptUpdate_record_of_ne newData same, Function.update_of_ne ne]
      exact h.keeps j listed'
  · rw [Book.total_accept, ← h.total]
    rfl
  · intro j low high
    have outside : j ≠ i := by
      have low' : b.names.length ≤ j := low
      omega
    rw [acceptUpdate_record_of_ne newData outside]
    exact h.marked j low high

/-- The dynamic registration of a new name. -/
theorem registerInstrument (h : Represents M N b s) {name : Name}
    (fresh : comHash name ∉ b.names.map comHash) (free : b.names.length + 1 < M) :
    Represents M N (b.enroll name fresh) (s.registerInstrument name) := by
  have other : ∀ j, j ≠ b.names.length →
      (s.registerInstrument name).shm.record j = s.shm.record j := by
    intro j ne
    rw [← h.next] at ne
    exact registerInstrument_record_of_ne name ne
  have self : (s.registerInstrument name).shm.record b.names.length =
      MdHeadPlus.labelled name N := by
    rw [← h.blockNum, ← h.next]
    exact Function.update_self ..
  have len : (b.enroll name fresh).names.length = b.names.length + 1 := by simp
  refine {
    h.toAddresses.registerInstrument fresh with
    attached := h.attached, blockNum := h.blockNum, maxNum := h.maxNum
    capacity := h.capacity, room := ?_, count := ?_, mdNum := ?_, mdBuffNum := h.mdBuffNum
    keeps := ?_, total := ?_, marked := ?_ }
  · rw [len]
    omega
  · change asInt32 (s.mMdNum + 1) = _
    have cap := h.capacity
    rw [len, h.count, asInt32_of_mem (by omega) (by omega)]
    push_cast
    rfl
  · rw [len, ← h.mdNum]
    rfl
  · intro i inside
    by_cases last : i = b.names.length
    · subst last
      rw [self]
      have none : b.updates (comHash name) = [] := b.unlisted _ fresh
      simpa [none] using MdHeadPlus.Keeps.labelled N name
    · have inside' : i < b.names.length := by omega
      rw [other i last]
      simpa [List.getElem_append_left inside'] using h.keeps i inside'
  · rw [Book.total_enroll, ← h.total]
    rfl
  · intro i low high
    rw [other i (by omega)]
    exact h.marked i (by omega) high

end Represents

/-! ## Steps -/

omit [MarketData α] in
theorem offerUpdate_cases (s : ShmMdPlus α) (index : Nat) (newData : α)
    (compare : Option (α → α → Bool)) :
    s.offerUpdate index newData compare = (s.acceptUpdate index newData, true) ∨
      s.offerUpdate index newData compare = (s, false) := by
  cases compare with
  | none => exact Or.inl rfl
  | some compare =>
      dsimp only [offerUpdate]
      split
      · exact Or.inl rfl
      · exact Or.inr rfl

/-- What a call can do: offer the update to the record of a known instrument, register
the instrument first while there is room, or refuse it. -/
theorem onRtnData_cases (s : ShmMdPlus α) (attached : s.mShmHead = true)
    (instrumentID : Name) (newData : α) (compare : Option (α → α → Bool)) :
    (∃ i, s.mInstrumentsAddress.lookup (comHash (cStr instrumentID)) = some i ∧
      s.onRtnData instrumentID newData compare = s.offerUpdate i newData compare) ∨
    (s.mInstrumentsAddress.lookup (comHash (cStr instrumentID)) = none ∧
      s.mMdNum < s.mMaxInstrumentNum - 1 ∧ s.onRtnData instrumentID newData compare =
        (s.registerInstrument (cStr instrumentID)).offerUpdate s.mNextEmptyMd newData compare) ∨
    (s.mInstrumentsAddress.lookup (comHash (cStr instrumentID)) = none ∧
      ¬ s.mMdNum < s.mMaxInstrumentNum - 1 ∧
      s.onRtnData instrumentID newData compare = (s, false)) := by
  unfold onRtnData
  rw [if_neg (by simp [attached])]
  dsimp only
  cases found : s.mInstrumentsAddress.lookup (comHash (cStr instrumentID)) with
  | some i => exact Or.inl ⟨i, rfl, rfl⟩
  | none =>
      by_cases free : s.mMdNum < s.mMaxInstrumentNum - 1
      · have registered : (s.registerInstrument (cStr instrumentID)).mInstrumentsAddress.lookup
            (comHash (cStr instrumentID)) = some s.mNextEmptyMd := by
          change (s.mInstrumentsAddress.insertNew _ s.mNextEmptyMd).lookup _ = _
          rw [AddressMap.lookup_insertNew, if_pos rfl, found, Option.getD_none]
        refine Or.inr (Or.inl ⟨rfl, free, ?_⟩)
        rw [if_pos free, registered]
      · exact Or.inr (Or.inr ⟨rfl, free, if_neg free⟩)

namespace Represents

variable {M N : Nat} {b b' : Book comHash α} {s : ShmMdPlus α} {name : Name} {i : Nat}

/-- The room test of `on_rtn_data` keeps one place free. -/
theorem room_iff (h : Represents M N b s) :
    s.mMdNum < s.mMaxInstrumentNum - 1 ↔ b.names.length + 1 < M := by
  rw [h.count, h.maxNum]
  omega

theorem offerUpdate (h : Represents M N b' s) (admits : Book.Admits M b name b')
    (found : s.mInstrumentsAddress.lookup (comHash name) = some i) (newData : α)
    (compare : Option (α → α → Bool)) :
    ∃ b'', Book.Offer M b name newData (s.offerUpdate i newData compare).2 b'' ∧
      Represents M N b'' (s.offerUpdate i newData compare).1 := by
  have listed : comHash name ∈ b'.names.map comHash :=
    List.mem_of_getElem? ((h.lookup _ i).mp found)
  rcases offerUpdate_cases s i newData compare with accepted | declined
  · rw [accepted]
    exact ⟨_, .accepted admits listed, h.acceptUpdate found listed newData⟩
  · rw [declined]
    exact ⟨_, .declined admits, h⟩

/-- A call of `on_rtn_data` is one offer to the book. -/
theorem onRtnData (h : Represents M N b s) (instrumentID : Name) (newData : α)
    (compare : Option (α → α → Bool)) :
    ∃ b', Book.Offer M b (cStr instrumentID) newData
        (s.onRtnData instrumentID newData compare).2 b' ∧
      Represents M N b' (s.onRtnData instrumentID newData compare).1 := by
  rcases onRtnData_cases s h.attached instrumentID newData compare with
    ⟨i, found, step⟩ | ⟨absent, free, step⟩ | ⟨absent, full, step⟩
  · rw [step]
    have listed := List.mem_of_getElem? ((h.lookup _ i).mp found)
    exact h.offerUpdate (.known listed) found newData compare
  · rw [step]
    have fresh := h.lookup_eq_none_iff.mp absent
    have registered := h.registerInstrument fresh (h.room_iff.mp free)
    have found : (s.registerInstrument (cStr instrumentID)).mInstrumentsAddress.lookup
        (comHash (cStr instrumentID)) = some s.mNextEmptyMd := by
      apply (registered.lookup _ _).mpr
      simp [h.next]
    exact registered.offerUpdate (.enrolled fresh (h.room_iff.mp free)) found newData compare
  · rw [step]
    rw [h.room_iff] at full
    exact ⟨b, .refused (h.lookup_eq_none_iff.mp absent) (by omega), h⟩

/-- A call keeps each known instrument at its record. It only changes the record of its own
instrument, and that only if it returns `true`. -/
theorem onRtnData_frame (h : Represents M N b s) (instrumentID : Name) (newData : α)
    (compare : Option (α → α → Bool)) {key : UInt64}
    (found : s.mInstrumentsAddress.lookup key = some i) :
    (s.onRtnData instrumentID newData compare).1.mInstrumentsAddress.lookup key = some i ∧
    (s.onRtnData instrumentID newData compare).1.mdBlockNum = s.mdBlockNum ∧
    ((s.onRtnData instrumentID newData compare).1.shm.record i = s.shm.record i ∨
      key = comHash (cStr instrumentID) ∧
        (s.onRtnData instrumentID newData compare).2 = true) := by
  rcases onRtnData_cases s h.attached instrumentID newData compare with
    ⟨j, own, step⟩ | ⟨absent, free, step⟩ | ⟨absent, full, step⟩
  · rw [step]
    rcases offerUpdate_cases s j newData compare with accepted | declined
    · rw [accepted]
      refine ⟨found, rfl, ?_⟩
      by_cases same : i = j
      · subst same
        exact Or.inr ⟨h.injective found own, rfl⟩
      · exact Or.inl (acceptUpdate_record_of_ne newData same)
    · rw [declined]
      exact ⟨found, rfl, Or.inl rfl⟩
  · rw [step]
    have known : (s.registerInstrument (cStr instrumentID)).mInstrumentsAddress.lookup key =
        some i := by
      have ne : key ≠ comHash (cStr instrumentID) := by
        rintro rfl
        rw [absent] at found
        cases found
      change (s.mInstrumentsAddress.insertNew _ _).lookup key = _
      rw [AddressMap.lookup_insertNew, if_neg ne, found]
    -- the new record lies behind those of the known instruments
    have old : i ≠ s.mNextEmptyMd := by
      obtain ⟨inside, -⟩ := h.of_lookup found
      rw [h.next]
      omega
    have kept := registerInstrument_record_of_ne (s := s) (cStr instrumentID) old
    rcases offerUpdate_cases (s.registerInstrument (cStr instrumentID)) s.mNextEmptyMd newData
      compare with accepted | declined
    · rw [accepted]
      exact ⟨known, rfl, Or.inl ((acceptUpdate_record_of_ne newData old).trans kept)⟩
    · rw [declined]
      exact ⟨known, rfl, Or.inl kept⟩
  · rw [step]
    exact ⟨found, rfl, Or.inl rfl⟩

end Represents

/-! ## Initialisation -/

/-- A writing `set_shm_addr` on a fresh store opens a book with the given names. -/
theorem setShmAddr_represents {s : ShmMdPlus α} {M N : Nat} {instruments : List Name}
    (blockNum : s.mdBlockNum = N) (maxNum : s.mMaxInstrumentNum = M)
    (buffNum : s.shm.head.mdBuffNum = N) (noKeys : s.mInstrumentsAddress = ∅)
    (uncounted : s.mMdNum = 0)
    (capacity : M < 2147483648) (room : instruments.length ≤ M)
    (distinct : (instruments.map comHash).Nodup) :
    Represents M N (Book.opened instruments distinct) (s.setShmAddr instruments true) := by
  have init := initialized_opening s instruments
  have left : (s.opening instruments).initLeft instruments = M - instruments.length := by
    change asInt32 (s.mMaxInstrumentNum - instruments.length) = _
    rw [maxNum]
    exact asInt32_of_mem (by omega) (by omega)
  have addresses : Addresses ((s.opening instruments).initShm instruments) instruments := by
    refine init.addresses distinct List.nil_prefix ?_
    intro key i
    change s.mInstrumentsAddress.lookup key = _ ↔ _
    rw [noKeys]
    simp
  rw [setShmAddr_eq]
  refine {
    next := addresses.next, lookup := addresses.lookup
    label := addresses.label, live := addresses.live
    attached := ?_, blockNum := ?_, maxNum := ?_, capacity := capacity, room := room
    count := ?_, mdNum := ?_, mdBuffNum := ?_, keeps := ?_, total := ?_, marked := ?_ }
  · rw [init.frame]
    rfl
  · rw [init.frame]
    exact blockNum
  · rw [init.frame]
    exact maxNum
  · rw [init.frame]
    change asInt32 (s.mMdNum + instruments.length) = instruments.length
    rw [uncounted, asInt32_of_mem (by omega) (by omega), Int.zero_add]
  · exact init.mdNum.trans (Nat.zero_add _)
  · rw [init.frame]
    exact buffNum
  · intro i inside
    change MdHeadPlus.Keeps N [] (((s.opening instruments).initShm instruments).shm.record i)
    have sameBlock : (s.opening instruments).mdBlockNum = N := blockNum
    rw [init.labelled i inside, sameBlock]
    exact MdHeadPlus.Keeps.labelled N _
  · rw [Book.total_opened]
    rfl
  · intro i low high
    have low' : instruments.length ≤ i := low
    change (((s.opening instruments).initShm instruments).shm.record i).currentIndex = -1
    rw [init.marked i low' (by rw [left]; omega)]

/-- A store made by `create_shm_ptr`, on the memory `page`. -/
def created (page : Region α) (maxInstrumentNum mdBuffNum : Nat) : ShmMdPlus α :=
  (new page).createShmPtr page maxInstrumentNum mdBuffNum

theorem created_blockNum (page : Region α) (M N : Nat) :
    (created page M N).mdBlockNum = asInt32 N := by
  simp [created, createShmPtr, new, zeroShm]

theorem created_maxNum (page : Region α) (M N : Nat) :
    (created page M N).mMaxInstrumentNum = asInt32 M := by
  simp [created, createShmPtr, new, zeroShm]

theorem created_address (page : Region α) (M N : Nat) :
    (created page M N).mInstrumentsAddress = ∅ := by
  simp [created, createShmPtr, new, zeroShm]

theorem created_mdNum (page : Region α) (M N : Nat) : (created page M N).mMdNum = 0 := by
  simp [created, createShmPtr, new, zeroShm]

/-- Only the records that lie in the region are cleared. -/
theorem created_record (page : Region α) (M N i : Nat) : (created page M N).shm.record i =
    if (created page M N).Fits i then MdHeadPlus.zeroed else page.record i := by
  by_cases fits : (created page M N).Fits i
  · rw [if_pos fits]
    exact if_pos fits
  · rw [if_neg fits]
    exact if_neg fits

/-- A store initialised by a writing `set_shm_addr`. -/
def start (page : Region α) (maxInstrumentNum mdBuffNum : Nat) (instruments : List Name) :
    ShmMdPlus α :=
  (created page maxInstrumentNum mdBuffNum).setShmAddr instruments true

theorem start_represents (page : Region α) {M N : Nat} {instruments : List Name}
    (capacity : M < 2147483648) (blocks : N < 2147483648) (room : instruments.length ≤ M)
    (distinct : (instruments.map comHash).Nodup) :
    Represents M N (Book.opened instruments distinct) (start page M N instruments) := by
  have blockNum := (created_blockNum page M N).trans (asInt32_of_mem (by omega) (by omega))
  have maxNum := (created_maxNum page M N).trans (asInt32_of_mem (by omega) (by omega))
  apply setShmAddr_represents blockNum maxNum _ (created_address page M N)
    (created_mdNum page M N) capacity room distinct
  simp [created, createShmPtr, new]

end ShmMdPlus
end RazorCrypto.Shm
