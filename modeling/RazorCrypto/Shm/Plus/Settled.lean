import RazorCrypto.Shm.Plus.Writes

/-!
# The store between two operations

`Settled M N s filled` says what a reader relies on between two operations of the writer: the
records in use are live and their labels were filled in, the other records are end markers
up to the capacity, and the header has the block length. Every operation leads from such a
state to such a state, as long as it is not an update of a record behind the records in use,
to which `m_instruments_address` still leads after an initialisation that left its instrument
out: such an update makes the record live again without a label.
-/

universe u

namespace RazorCrypto.Shm.ShmMdPlus

open MachineInt

variable {α : Type u} [MarketData α]

omit [MarketData α] in
/-- Which labels are filled in after a store. -/
def fillAfter (filled : Nat → Bool) : Write α → Nat → Bool
  | .clearInstrumentId i => Function.update filled i false
  | .fillInstrumentId i _ => Function.update filled i true
  | _ => filled

/-- Which labels are filled in after several stores. -/
def fillAll (filled : Nat → Bool) (ws : List (Write α)) : Nat → Bool := ws.foldl fillAfter filled

/-- What the creation of a store fixes. -/
structure Sized (M N : Nat) (s : ShmMdPlus α) : Prop where
  blockNum : s.mdBlockNum = N
  buffNum : s.shm.head.mdBuffNum = N
  maxNum : s.mMaxInstrumentNum = M
  count : s.mNextEmptyMd ≤ s.mMdNum

/-- The records in use are live and labelled, and the others are end markers. -/
structure Settled (M N : Nat) (s : ShmMdPlus α) (filled : Nat → Bool) : Prop
    extends Sized M N s where
  room : s.mNextEmptyMd ≤ M
  live : ∀ i, i < s.mNextEmptyMd → 0 ≤ (s.shm.record i).currentIndex
  labelled : ∀ i, i < s.mNextEmptyMd → filled i = true
  marked : ∀ i, s.mNextEmptyMd ≤ i → i ≤ M → (s.shm.record i).currentIndex = -1

/-- What the caller of an operation must see to: the instruments fit, `m_md_num` does not
overflow, and an update goes to a record in use. -/
def Permitted (s : ShmMdPlus α) : Op α → Prop
  | .setShmAddr instruments => (instruments.length : Int) ≤ s.mMaxInstrumentNum ∧
      s.mMdNum + instruments.length < 2147483648
  | .reInitShm instruments => (instruments.length : Int) ≤ s.mMaxInstrumentNum
  | .onRtnData c => ∀ i, s.mInstrumentsAddress.lookup c.key = some i → i < s.mNextEmptyMd

variable {M N : Nat} {s t : ShmMdPlus α} {filled : Nat → Bool} {instruments : List Name}

/-! ## The labels -/

omit [MarketData α] in
theorem fillAll_append (filled : Nat → Bool) (ws ws' : List (Write α)) :
    fillAll filled (ws ++ ws') = fillAll (fillAll filled ws) ws' :=
  List.foldl_append

omit [MarketData α] in
theorem fillAll_instrument (filled : Nat → Bool) (blockNum : Int) (head : Nat)
    (instrument : Name) :
    fillAll filled (instrumentWrites (α := α) blockNum head instrument) =
      Function.update filled head true := by
  simp [fillAll, instrumentWrites, clearRecord, fillAfter]

omit [MarketData α] in
theorem fillAll_enter (filled : Nat → Bool) (blockNum : Int) (head : Nat)
    (instruments : List Name) (i : Nat) :
    fillAll filled (enterWrites (α := α) blockNum head instruments) i =
      if head ≤ i ∧ i < head + instruments.length then true else filled i := by
  induction instruments generalizing filled head with
  | nil =>
      rw [if_neg (by simp)]
      rfl
  | cons instrument instruments ih =>
      rw [enterWrites, fillAll_append, fillAll_instrument, ih, List.length_cons]
      by_cases here : i = head
      · subst here
        rw [if_neg (by omega), if_pos (by omega), Function.update_self]
      · rw [Function.update_of_ne here]
        congr 1
        simp only [eq_iff_iff]
        omega

omit [MarketData α] in
theorem fillAll_mark (filled : Nat → Bool) (tail n : Nat) :
    fillAll filled (markWrites (α := α) tail n) = filled := by
  induction n generalizing tail with
  | zero => rfl
  | succ n ih => exact ih (tail + 1)

omit [MarketData α] in
/-- After `init_shm` the labels of the instruments are filled in. -/
theorem fillAll_init (filled : Nat → Bool) {i : Nat} (inside : i < instruments.length) :
    fillAll filled (s.initWrites instruments) i = true := by
  rw [initWrites, fillAll_append, fillAll_mark, fillAll_enter, if_pos (by omega)]

omit [MarketData α] in
/-- An offer does not touch a label. -/
theorem fillAll_offer (filled : Nat → Bool) (index : Nat) (newData : α)
    (compare : Option (α → α → Bool)) :
    fillAll filled (s.offerWrites index newData compare) = filled := by
  obtain ⟨-, stores⟩ | ⟨-, nothing⟩ := s.offerWrites_cases index newData compare
  · rw [stores]
    rfl
  · rw [nothing]
    rfl

/-! ## Initialisations -/

/-- What `init_shm` leaves behind, whatever is in the header beside the block length. -/
theorem settled_of_initialized (init : Initialized s instruments t) (capacity : M < 2147483648)
    (blockNum : s.mdBlockNum = N) (maxNum : s.mMaxInstrumentNum = M)
    (room : instruments.length ≤ M) (count : (instruments.length : Int) ≤ s.mMdNum)
    {head : MdShmHeadPlus} (buffNum : head.mdBuffNum = N)
    (labelled : ∀ i, i < instruments.length → filled i = true) :
    Settled M N { t with shm := ⟨head, t.shm.record⟩ } filled := by
  have left : s.initLeft instruments = M - instruments.length := by
    rw [initLeft, maxNum]
    exact asInt32_of_mem (by omega) (by omega)
  have next := init.next
  refine {
    blockNum := ?_, buffNum := buffNum, maxNum := ?_, count := ?_, room := ?_
    live := ?_, labelled := ?_, marked := ?_ }
  · rw [init.frame]
    exact blockNum
  · rw [init.frame]
    exact maxNum
  · change (t.mNextEmptyMd : Int) ≤ t.mMdNum
    rw [next, init.frame]
    exact count
  · change t.mNextEmptyMd ≤ M
    omega
  · intro i inside
    change 0 ≤ (t.shm.record i).currentIndex
    rw [init.labelled i (next ▸ inside)]
    exact Int.le_refl 0
  · intro i inside
    exact labelled i (next ▸ inside)
  · intro i low high
    change t.mNextEmptyMd ≤ i at low
    change (t.shm.record i).currentIndex = -1
    rw [init.marked i (by omega) (by omega)]

/-- An initialisation settles every store of the right size. -/
theorem Sized.initialise (h : Sized M N s) (capacity : M < 2147483648) {op : Op α}
    (initialises : op.instruments? = some instruments) (permitted : s.Permitted op)
    (filled : Nat → Bool) : Settled M N (s.apply op) (fillAll filled (s.writesOf op)) := by
  have maxNum := h.maxNum
  have count := h.count
  cases op with
  | setShmAddr =>
      cases initialises
      obtain ⟨room, bounded⟩ := permitted
      have init := initialized_opening s instruments
      have buffNum : ((s.opening instruments).initShm instruments).shm.head.mdBuffNum = N := by
        rw [init.frame]
        exact h.buffNum
      refine settled_of_initialized init capacity h.blockNum maxNum (by omega) ?_ buffNum ?_
      · change (instruments.length : Int) ≤ asInt32 (s.mMdNum + instruments.length)
        rw [asInt32_of_mem (by omega) (by omega)]
        omega
      · intro i inside
        rw [writesOf, fillAll_append, fillAll_append]
        exact fillAll_init _ inside
  | reInitShm =>
      cases initialises
      have room : (instruments.length : Int) ≤ s.mMaxInstrumentNum := permitted
      refine settled_of_initialized (initialized_reopening s instruments) capacity h.blockNum
        maxNum (by omega) ?_ h.buffNum ?_
      · change (instruments.length : Int) ≤ asInt32 instruments.length
        rw [asInt32_of_mem (by omega) (by omega)]
      · intro i inside
        rw [writesOf, fillAll_append, fillAll_append, fillAll_append]
        exact fillAll_init _ inside
  | onRtnData c => cases initialises

/-! ## Updates and registrations -/

namespace Settled

omit [MarketData α] in
/-- Up to the capacity, only the records in use are live. -/
theorem lt_of_live (h : Settled M N s filled) {i : Nat} (within : i ≤ M)
    (live : 0 ≤ (s.shm.record i).currentIndex) : i < s.mNextEmptyMd := by
  by_contra behind
  have marked := h.marked i (by omega) within
  omega

omit [MarketData α] in
theorem acceptUpdate (h : Settled M N s filled) {i : Nat} (inside : i < s.mNextEmptyMd)
    (newData : α) : Settled M N (s.acceptUpdate i newData) filled := by
  refine { h.toSized, h with
    blockNum := h.blockNum, buffNum := h.buffNum, maxNum := h.maxNum, count := h.count
    live := ?_, marked := ?_ }
  · intro j used
    by_cases same : j = i
    · subst same
      have live := h.live j inside
      change 0 ≤ (Function.update s.shm.record j _ j).currentIndex
      rw [Function.update_self]
      change 0 ≤ (s.shm.record j).currentIndex + 1
      omega
    · rw [acceptUpdate_record_of_ne newData same]
      exact h.live j used
  · intro j low high
    have behind : s.mNextEmptyMd ≤ j := low
    rw [acceptUpdate_record_of_ne newData (by omega)]
    exact h.marked j low high

omit [MarketData α] in
theorem offerUpdate (h : Settled M N s filled) {i : Nat} (inside : i < s.mNextEmptyMd)
    (newData : α) (compare : Option (α → α → Bool)) :
    Settled M N (s.offerUpdate i newData compare).1 filled := by
  obtain accepted | declined := offerUpdate_cases s i newData compare
  · rw [accepted]
    exact h.acceptUpdate inside newData
  · rw [declined]
    exact h

/-- A registration finds room, and labels the first free record. -/
theorem registerInstrument (h : Settled M N s filled) (capacity : M < 2147483648)
    (free : s.mMdNum < s.mMaxInstrumentNum - 1) (id : Name) :
    Settled M N (s.registerInstrument id) (Function.update filled s.mNextEmptyMd true) := by
  have maxNum := h.maxNum
  have count := h.count
  refine {
    blockNum := h.blockNum, buffNum := h.buffNum, maxNum := maxNum, count := ?_, room := ?_
    live := ?_, labelled := ?_, marked := ?_ }
  · change ((s.mNextEmptyMd + 1 : Nat) : Int) ≤ asInt32 (s.mMdNum + 1)
    rw [asInt32_of_mem (by omega) (by omega)]
    omega
  · change s.mNextEmptyMd + 1 ≤ M
    omega
  · intro i inside
    by_cases last : i = s.mNextEmptyMd
    · subst last
      change 0 ≤ (Function.update s.shm.record s.mNextEmptyMd _ s.mNextEmptyMd).currentIndex
      rw [Function.update_self]
      exact Int.le_refl 0
    · rw [registerInstrument_record_of_ne id last]
      exact h.live i (Nat.lt_of_le_of_ne (Nat.le_of_lt_succ inside) last)
  · intro i inside
    by_cases last : i = s.mNextEmptyMd
    · rw [last, Function.update_self]
    · rw [Function.update_of_ne last]
      exact h.labelled i (Nat.lt_of_le_of_ne (Nat.le_of_lt_succ inside) last)
  · intro i low high
    have behind : s.mNextEmptyMd + 1 ≤ i := low
    rw [registerInstrument_record_of_ne id (by omega)]
    exact h.marked i (by omega) high

/-- Every permitted operation leads from a settled state to a settled state. -/
theorem apply (h : Settled M N s filled) (capacity : M < 2147483648) {op : Op α}
    (permitted : s.Permitted op) :
    Settled M N (s.apply op) (fillAll filled (s.writesOf op)) := by
  cases op with
  | setShmAddr instruments => exact h.initialise capacity rfl permitted filled
  | reInitShm instruments => exact h.initialise capacity rfl permitted filled
  | onRtnData c =>
      rw [ShmMdPlus.apply, writesOf]
      obtain ⟨i, found, step, stores⟩ | ⟨-, free, step, stores⟩ | ⟨step, nothing⟩ :=
        s.rtnDataWrites_cases c
      · rw [step, stores, fillAll_offer]
        exact h.offerUpdate (permitted i found) c.newData c.compare
      · rw [step, stores, fillAll_append, fillAll_instrument, fillAll_offer]
        exact (h.registerInstrument capacity free _).offerUpdate (Nat.lt_succ_self _) c.newData
          c.compare
      · rw [step, nothing]
        exact h

end Settled
end RazorCrypto.Shm.ShmMdPlus
