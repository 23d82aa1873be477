import RazorCrypto.Foundation.Transition
import RazorCrypto.Shm.Plus.Writes

/-!
# An update under way

While the writer executes the stores of an `on_rtn_data`, a reader that goes through `get_cur` finds
the record of a known instrument as it was before the call, with the new data in its next slot, or
with the new data counted. The new data is copied word by word; until the copy is complete, the slot
may hold anything. With two slots or more it is never the slot that `get_cur` leads to. `get_cur`
takes the number of slots from the record itself, where `init_instrument_shm` put it. A registration
goes to a record behind those of the known instruments.
-/

universe u

namespace RazorCrypto.Shm

open MachineInt Transition

variable {α : Type u} [MarketData α]

/-! ## Single stores -/

omit [MarketData α] in
/-- The record that a store changes. -/
def Write.record? : Write α → Option Nat
  | .clearIndex i | .clearInstrumentId i | .bufferLen i _ | .clearDat i | .fillInstrumentId i _
  | .markIndex i | .storeDat i _ _ | .incIndex i => some i
  | _ => none

namespace Region

variable {shm : Region α} {w : Write α} {ws : List (Write α)} {i j : Nat}

omit [MarketData α] in
theorem modify_record_of_ne (f : MdHeadPlus α → MdHeadPlus α) (ne : i ≠ j) :
    (shm.modify j f).record i = shm.record i :=
  Function.update_of_ne ne ..

omit [MarketData α] in
theorem modify_record_self (f : MdHeadPlus α → MdHeadPlus α) :
    (shm.modify i f).record i = f (shm.record i) :=
  Function.update_self ..

theorem write_record_of_ne (elsewhere : w.record? ≠ some i) :
    (shm.write w).record i = shm.record i := by
  cases w with
  | updateNum | mdNum | mdBuffNum | incMdNum | incUpdateNum => rfl
  | clearIndex | clearInstrumentId | bufferLen | clearDat | fillInstrumentId | markIndex | storeDat
  | incIndex =>
      rw [write]
      exact modify_record_of_ne _ fun same => elsewhere (congrArg some same.symm)

theorem writes_record_of_ne (elsewhere : ∀ w ∈ ws, w.record? ≠ some i) :
    (shm.writes ws).record i = shm.record i := by
  induction ws generalizing shm with
  | nil => rfl
  | cons w ws ih =>
      rw [List.forall_mem_cons] at elsewhere
      exact (ih elsewhere.2).trans (write_record_of_ne elsewhere.1)

/-- Only four kinds of store change `current_index`. -/
theorem write_currentIndex (uncleared : w ≠ .clearIndex i) (unmarked : w ≠ .markIndex i)
    (uncounted : w ≠ .incIndex i) :
    ((shm.write w).record i).currentIndex = (shm.record i).currentIndex := by
  by_cases here : w.record? = some i
  · cases w with
    | updateNum | mdNum | mdBuffNum | incMdNum | incUpdateNum => cases here
    | clearIndex => exact absurd (congrArg Write.clearIndex (Option.some.inj here)) uncleared
    | markIndex => exact absurd (congrArg Write.markIndex (Option.some.inj here)) unmarked
    | incIndex => exact absurd (congrArg Write.incIndex (Option.some.inj here)) uncounted
    | clearInstrumentId | bufferLen | clearDat | fillInstrumentId | storeDat =>
        cases here
        simp only [write, modify_record_self]
  · rw [write_record_of_ne here]

theorem storeDat_currentIndex (slot : Nat) (newData : α) :
    ((shm.write (.storeDat j slot newData)).record i).currentIndex = (shm.record i).currentIndex :=
  write_currentIndex (by simp) (by simp) (by simp)

/-- A copy leaves nothing of what its slot held when it was under way. -/
theorem write_storeDat_storeDat (shm : Region α) (i slot : Nat) (partly newData : α) :
    (shm.write (.storeDat i slot partly)).write (.storeDat i slot newData) =
      shm.write (.storeDat i slot newData) := by
  rw [write, write, write, modify_modify]
  congr 1
  funext r
  simp

end Region

/-! ## What a reader finds in a record -/

namespace MdHeadPlus

/-- A record that has counted `k` of these updates. A single slot is the one that is written. -/
structure Shows (N : Nat) (us : List α) (k : Nat) (r : MdHeadPlus α) : Prop where
  index : r.currentIndex = k
  len : r.bufferLen = N
  newest : 1 ≤ k → 2 ≤ N → us[k - 1]? = some (r.dat ((k - 1) % N))

variable {r : MdHeadPlus α} {N k : Nat} {us : List α}

theorem Keeps.newest (h : Keeps N us r) (pos : 1 ≤ N) (counted : 1 ≤ us.length) :
    us[us.length - 1]? = some (r.dat ((us.length - 1) % N)) := by
  rw [List.getElem?_eq_getElem (by omega)]
  exact congrArg _ (h.slots (us.length - 1) (by omega) (by omega)).symm

/-- Between two calls, whatever comes next. -/
theorem Keeps.shows (h : Keeps N us r) (pos : 1 ≤ N) (len : r.bufferLen = N) (more : List α) :
    Shows N (us ++ more) us.length r := by
  refine ⟨h.index, len, fun counted _ => ?_⟩
  rw [List.getElem?_append_left (by omega)]
  exact h.newest pos counted

/-- Whatever the next slot holds, the update counted last is in the one before it. -/
theorem Keeps.shows_storing (h : Keeps N us r) (len : r.bufferLen = N) (more : List α)
    (partly : α) :
    Shows N (us ++ more) us.length
      { r with dat := Function.update r.dat (r.nextOffset N) partly } := by
  refine ⟨h.index, len, fun counted two => ?_⟩
  change _ = some (Function.update r.dat (r.nextOffset N) partly _)
  have other : (us.length - 1) % N ≠ us.length % N := SlotRing.mod_ne (by omega) (by omega)
  rw [nextOffset_eq h.index, Function.update_of_ne other, List.getElem?_append_left (by omega)]
  exact h.newest (by omega) counted

omit [MarketData α] in
/-- `get_cur` leads to the newest update. -/
theorem Shows.getCur (h : Shows N us k r) (pos : 1 ≤ k) :
    r.getCur = some ((k - 1) % N) := by
  rw [getCur_eq h.index pos h.len, curOffset_eq h.index pos]

end MdHeadPlus

namespace ShmMdPlus

variable {M N : Nat} {b : Book comHash α} {s : ShmMdPlus α} {c : Call α} {i j : Nat}
  {done todo : List (Write α)} {w : Write α}

/-! ## The number of slots -/

/-- The records in use know the number of their slots. -/
structure Lengths (N : Nat) (s : ShmMdPlus α) : Prop where
  blockNum : s.mdBlockNum = N
  len : ∀ i, i < s.mNextEmptyMd → (s.shm.record i).bufferLen = N

namespace Lengths

omit [MarketData α] in
theorem offerUpdate (h : Lengths N s) (j : Nat) (newData : α) (compare : Option (α → α → Bool)) :
    Lengths N (s.offerUpdate j newData compare).1 := by
  obtain accepted | declined := offerUpdate_cases s j newData compare
  · rw [accepted]
    refine ⟨h.blockNum, fun i inside => ?_⟩
    by_cases same : i = j
    · subst same
      change (Function.update s.shm.record i _ i).bufferLen = N
      rw [Function.update_self]
      exact h.len i inside
    · rw [acceptUpdate_record_of_ne newData same]
      exact h.len i inside
  · rw [declined]
    exact h

theorem registerInstrument (h : Lengths N s) (id : Name) : Lengths N (s.registerInstrument id) := by
  refine ⟨h.blockNum, fun i inside => ?_⟩
  by_cases last : i = s.mNextEmptyMd
  · subst last
    change (Function.update s.shm.record s.mNextEmptyMd _ s.mNextEmptyMd).bufferLen = N
    rw [Function.update_self]
    exact h.blockNum
  · rw [registerInstrument_record_of_ne id last]
    exact h.len i (Nat.lt_of_le_of_ne (Nat.le_of_lt_succ inside) last)

theorem call (h : Lengths N s) (c : Call α) : Lengths N (s.call c).1 := by
  obtain ⟨j, -, step, -⟩ | ⟨-, -, step, -⟩ | ⟨step, -⟩ := s.rtnDataWrites_cases c
  · rw [step]
    exact h.offerUpdate j c.newData c.compare
  · rw [step]
    exact (h.registerInstrument _).offerUpdate s.mNextEmptyMd c.newData c.compare
  · rwa [step]

theorem run (h : Lengths N s) (calls : List (Call α)) : Lengths N (s.run calls).1 := by
  induction calls using List.reverseRecOn with
  | nil => exact h
  | append_singleton calls c ih =>
      rw [run_concat]
      exact ih.call c

theorem setShmAddr (blockNum : s.mdBlockNum = N) (instruments : List Name) :
    Lengths N (s.setShmAddr instruments true) := by
  have init := initialized_opening s instruments
  rw [setShmAddr_eq]
  refine ⟨?_, fun i inside => ?_⟩
  · rw [init.frame]
    exact blockNum
  · have labelled := init.labelled i (init.next ▸ inside)
    rw [show (s.opening instruments).mdBlockNum = N from blockNum] at labelled
    exact congrArg MdHeadPlus.bufferLen labelled

theorem start (page : Region α) (M : Nat) (instruments : List Name) (blocks : N < 2147483648) :
    Lengths N (start page M N instruments) :=
  setShmAddr ((created_blockNum page M N).trans (asInt32_of_mem (by omega) (by omega))) instruments

end Lengths

/-! ## The stores of a call -/

/-- How far the stores of an accepted update can have come. -/
theorem split_three {β : Type*} {x y z : β} {before after : List β}
    (split : [x, y, z] = before ++ after) :
    before = [] ∨ before = [x] ∨ before = [x, y] ∨ before = [x, y, z] := by
  have first : before <+: [x, y, z] := ⟨after, split.symm⟩
  simp only [List.prefix_cons_iff, List.prefix_nil] at first
  grind

/-- The record in the middle of an accepted update: as before, with the new data, or with the new
data counted. -/
theorem record_of_accepting {shm : Region α} {newData : α}
    (split : [.storeDat i ((shm.record i).nextOffset N) newData, .incIndex i, .incUpdateNum] =
      done ++ todo) :
    (shm.writes done).record i = shm.record i ∨
    (shm.writes done).record i = { shm.record i with
      dat := Function.update (shm.record i).dat ((shm.record i).nextOffset N) newData } ∨
    (shm.writes done).record i = (shm.record i).store N newData := by
  have counts (shm' : Region α) : (shm'.write (.incIndex i)).record i =
      { shm'.record i with currentIndex := (shm'.record i).currentIndex + 1 } := by
    rw [Region.write, Region.modify_record_self]
  have stored : (shm.write (.storeDat i ((shm.record i).nextOffset N) newData)).record i =
      { shm.record i with
        dat := Function.update (shm.record i).dat ((shm.record i).nextOffset N) newData } := by
    rw [Region.write, Region.modify_record_self]
  have counted := counts (shm.write (.storeDat i ((shm.record i).nextOffset N) newData))
  rw [stored] at counted
  obtain rfl | rfl | rfl | rfl := split_three split
  · exact .inl rfl
  · exact .inr (.inl stored)
  · exact .inr (.inr counted)
  · exact .inr (.inr counted)

omit [MarketData α] in
theorem elsewhere_of_offer (s : ShmMdPlus α) {j : Nat} (ne : i ≠ j) (newData : α)
    (compare : Option (α → α → Bool)) :
    ∀ w ∈ s.offerWrites j newData compare, w.record? ≠ some i := by
  have other : ¬j = i := fun same => ne same.symm
  obtain ⟨-, stores⟩ | ⟨-, nothing⟩ := s.offerWrites_cases j newData compare
  · rw [stores]
    simp [Write.record?, other]
  · rw [nothing]
    simp

omit [MarketData α] in
theorem elsewhere_of_instrument (blockNum : Int) {head : Nat} (ne : i ≠ head) (instrument : Name) :
    ∀ w ∈ instrumentWrites (α := α) blockNum head instrument, w.record? ≠ some i := by
  have other : ¬head = i := fun same => ne same.symm
  simp [instrumentWrites, clearRecord, Write.record?, other]

omit [MarketData α] in
/-- What an offer stores besides the count leaves `current_index` alone. -/
theorem uncounted_of_offer (s : ShmMdPlus α) (j : Nat) (newData : α)
    (compare : Option (α → α → Bool)) :
    ∀ w ∈ s.offerWrites j newData compare, (∀ i, w ≠ .incIndex i) →
      ∀ i, w ≠ .clearIndex i ∧ w ≠ .markIndex i := by
  obtain ⟨-, stores⟩ | ⟨-, nothing⟩ := s.offerWrites_cases j newData compare
  · rw [stores]
    simp
  · rw [nothing]
    simp

/-- What an offer counts comes second. -/
theorem live_of_offer (s : ShmMdPlus α) {j : Nat} {newData : α} {compare : Option (α → α → Bool)}
    {shm : Region α} (live : 0 ≤ (shm.record j).currentIndex)
    (stores : s.offerWrites j newData compare = done ++ .incIndex i :: todo) :
    0 ≤ ((shm.writes done).record i).currentIndex := by
  obtain ⟨-, three⟩ | ⟨-, nothing⟩ := s.offerWrites_cases j newData compare
  · rw [three] at stores
    rcases done with _ | ⟨first, _ | ⟨second, _ | ⟨third, done⟩⟩⟩
    · simp at stores
    · simp only [List.cons_append, List.nil_append, List.cons.injEq, Write.incIndex.injEq] at stores
      obtain ⟨rfl, rfl, -⟩ := stores
      simpa [Region.writes, Region.write, Region.modify_record_self] using live
    · simp at stores
    · simp at stores
  · rw [nothing] at stores
    simp at stores

/-- A registration clears its record first. An end marker counts nothing, and neither does a
record that is cleared. -/
theorem index_of_instrument {shm : Region α} {blockNum : Int} {head : Nat} {instrument : Name}
    (marked : (shm.record head).currentIndex ≤ 0)
    (stores : instrumentWrites blockNum head instrument = done ++ w :: todo) (i : Nat) :
    (((shm.writes done).write w).record i).currentIndex.toNat =
      ((shm.writes done).record i).currentIndex.toNat := by
  rcases done with _ | ⟨first, done⟩
  · obtain ⟨rfl, -⟩ : .clearIndex head = w ∧ _ := List.cons.inj stores
    by_cases here : i = head
    · subst here
      have cleared : ((shm.write (.clearIndex i)).record i).currentIndex = 0 := by
        rw [Region.write, Region.modify_record_self]
      change ((shm.write (.clearIndex i)).record i).currentIndex.toNat =
        (shm.record i).currentIndex.toNat
      omega
    · rw [Region.write_record_of_ne]
      simpa [Write.record?] using Ne.symm here
  · have listed : w ∈ (instrumentWrites blockNum head instrument).tail := by
      rw [stores]
      simp
    have kept : w ≠ .clearIndex i ∧ w ≠ .markIndex i ∧ w ≠ .incIndex i := by
      simp only [instrumentWrites, clearRecord, List.cons_append, List.nil_append, List.tail_cons,
        List.mem_cons, List.not_mem_nil, or_false] at listed
      rcases listed with rfl | rfl | rfl | rfl | rfl | rfl <;> simp
    rw [Region.write_currentIndex kept.1 kept.2.1 kept.2.2]

namespace Represents

/-- A record is live when the writer counts an update of it. -/
theorem live_of_counting (h : Represents M N b s)
    (stores : s.rtnDataWrites c = done ++ .incIndex i :: todo) :
    0 ≤ ((s.shm.writes done).record i).currentIndex := by
  obtain ⟨j, own, -, offer⟩ | ⟨-, -, -, offer⟩ | ⟨-, nothing⟩ := s.rtnDataWrites_cases c
  · obtain ⟨inside, -⟩ := h.of_lookup own
    exact live_of_offer s (h.live j inside) (offer.symm.trans stores)
  · rw [offer] at stores
    obtain ⟨more, rfl, later⟩ | ⟨rest, -, early⟩ := append_eq_split stores
    · rw [Region.writes_append]
      refine live_of_offer _ ?_ later
      rw [writes_instrument]
      change 0 ≤ (Function.update s.shm.record s.mNextEmptyMd _ s.mNextEmptyMd).currentIndex
      rw [Function.update_self]
      exact Int.le_refl 0
    · have listed : .incIndex i ∈ instrumentWrites (α := α) s.mdBlockNum s.mNextEmptyMd
          (cStr c.instrumentID) := by
        rw [early]
        simp
      simp [instrumentWrites, clearRecord] at listed
  · rw [nothing] at stores
    simp at stores

/-- All other stores of a call leave the counts alone. -/
theorem index_of_uncounted (h : Represents M N b s)
    (stores : s.rtnDataWrites c = done ++ w :: todo) (uncounted : ∀ i, w ≠ .incIndex i) (i : Nat) :
    (((s.shm.writes done).write w).record i).currentIndex.toNat =
      ((s.shm.writes done).record i).currentIndex.toNat := by
  have offered (t : ShmMdPlus α) (j : Nat) (listed : w ∈ t.offerWrites j c.newData c.compare) :
      (((s.shm.writes done).write w).record i).currentIndex.toNat =
        ((s.shm.writes done).record i).currentIndex.toNat := by
    obtain ⟨uncleared, unmarked⟩ := uncounted_of_offer t j c.newData c.compare w listed uncounted i
    rw [Region.write_currentIndex uncleared unmarked (uncounted i)]
  obtain ⟨j, -, -, offer⟩ | ⟨-, free, -, offer⟩ | ⟨-, nothing⟩ := s.rtnDataWrites_cases c
  · refine offered s j ?_
    rw [← offer, stores]
    simp
  · rw [offer] at stores
    obtain ⟨more, rfl, later⟩ | ⟨rest, -, early⟩ := append_eq_split stores
    · refine offered (s.registerInstrument (cStr c.instrumentID)) s.mNextEmptyMd ?_
      rw [later]
      simp
    · refine index_of_instrument ?_ early i
      have room := h.room_iff.mp free
      have marker := h.marked s.mNextEmptyMd (by rw [h.next]) (by rw [h.next]; omega)
      omega
  · rw [nothing] at stores
    simp at stores

/-- The record of a known instrument in the middle of a call. -/
theorem shows (h : Represents M N b s) (lengths : Lengths N s) (pos : 1 ≤ N)
    (stores : s.rtnDataWrites c = done ++ todo) {key : UInt64}
    (found : s.mInstrumentsAddress.lookup key = some i) :
    ∃ k, MdHeadPlus.Shows N
      (b.updates key ++ if (s.call c).2 ∧ c.key = key then [c.newData] else []) k
      ((s.shm.writes done).record i) := by
  have keeps := h.keeps_lookup found
  obtain ⟨inside, -⟩ := h.of_lookup found
  have len := lengths.len i (h.next ▸ inside)
  have untouched (elsewhere : ∀ w ∈ s.rtnDataWrites c, w.record? ≠ some i) (more : List α) :
      ∃ k, MdHeadPlus.Shows N (b.updates key ++ more) k ((s.shm.writes done).record i) := by
    have before : ∀ w ∈ done, w.record? ≠ some i := fun w listed =>
      elsewhere w (stores ▸ List.mem_append_left _ listed)
    rw [Region.writes_record_of_ne before]
    exact ⟨_, keeps.shows pos len more⟩
  obtain ⟨j, own, step, offer⟩ | ⟨-, -, -, offer⟩ | ⟨-, nothing⟩ := s.rtnDataWrites_cases c
  · by_cases same : i = j
    · subst same
      obtain rfl := h.injective found own
      obtain ⟨accepted, three⟩ | ⟨declined, none⟩ := s.offerWrites_cases i c.newData c.compare
      · rw [step, accepted, if_pos ⟨rfl, rfl⟩]
        rw [offer, three, h.blockNum] at stores
        have counted : MdHeadPlus.Shows N (b.updates c.key ++ [c.newData])
            ((b.updates c.key).length + 1) ((s.shm.record i).store N c.newData) := by
          have after := (keeps.store c.newData).shows pos len []
          simpa using after
        obtain before | stored | after := record_of_accepting stores
        · rw [before]
          exact ⟨_, keeps.shows pos len _⟩
        · rw [stored]
          exact ⟨_, keeps.shows_storing len _ c.newData⟩
        · rw [after]
          exact ⟨_, counted⟩
      · refine untouched ?_ _
        rw [offer, none]
        exact List.forall_mem_nil _
    · exact untouched (offer ▸ elsewhere_of_offer s same _ _) _
  · have ne : i ≠ s.mNextEmptyMd := by
      rw [h.next]
      omega
    refine untouched ?_ _
    rw [offer]
    simp only [List.forall_mem_append]
    exact ⟨elsewhere_of_instrument _ ne _, elsewhere_of_offer _ ne _ _⟩
  · refine untouched ?_ _
    rw [nothing]
    exact List.forall_mem_nil _

/-- New data of a known instrument is the first store of its call, and goes to the next slot. -/
theorem storing_first (h : Represents M N b s) {slot : Nat} {newData : α}
    (stores : s.rtnDataWrites c = done ++ .storeDat i slot newData :: todo) {key : UInt64}
    (found : s.mInstrumentsAddress.lookup key = some i) :
    done = [] ∧ slot = (s.shm.record i).nextOffset N := by
  have first {t : ShmMdPlus α} {j : Nat}
      (offer : t.offerWrites j c.newData c.compare = done ++ .storeDat i slot newData :: todo) :
      done = [] ∧ i = j ∧ slot = (t.shm.record j).nextOffset t.mdBlockNum := by
    obtain ⟨-, three⟩ | ⟨-, nothing⟩ := t.offerWrites_cases j c.newData c.compare
    · rw [three] at offer
      rcases done with _ | ⟨one, _ | ⟨two, _ | ⟨three, done⟩⟩⟩
      · obtain ⟨rfl, rfl, -⟩ := Write.storeDat.inj (List.cons.inj offer).1
        exact ⟨rfl, rfl, rfl⟩
      · simp at offer
      · simp at offer
      · simp at offer
    · rw [nothing] at offer
      simp at offer
  obtain ⟨inside, -⟩ := h.of_lookup found
  obtain ⟨j, -, -, offer⟩ | ⟨-, -, -, offer⟩ | ⟨-, nothing⟩ := s.rtnDataWrites_cases c
  · obtain ⟨none, rfl, next⟩ := first (offer.symm.trans stores)
    rw [h.blockNum] at next
    exact ⟨none, next⟩
  · have ne : i ≠ s.mNextEmptyMd := by
      rw [h.next]
      omega
    have elsewhere : ∀ w ∈ s.rtnDataWrites c, w.record? ≠ some i := by
      rw [offer]
      simp only [List.forall_mem_append]
      exact ⟨elsewhere_of_instrument _ ne _, elsewhere_of_offer _ ne _ _⟩
    exact absurd rfl (elsewhere (.storeDat i slot newData) (by simp [stores]))
  · rw [nothing] at stores
    simp at stores

end Represents

/-! ## The writer between two stores -/

/-- A writer that accepted the updates `total`, with the stores that are yet to come. It knows
the instruments of the address map `map`. While it copies new data, their slot holds anything. -/
inductive Midway (M N : Nat) (map : AddressMap) (total : UInt64 → List α) :
    ShmMdPlus α → List (Write α) → Prop
  | rests {b : Book comHash α} {s : ShmMdPlus α} (represented : Represents M N b s)
      (lengths : Lengths N s)
      (known : ∀ key i, map.lookup key = some i → s.mInstrumentsAddress.lookup key = some i)
      (updates : ∀ key, total key = b.updates key) : Midway M N map total s []
  | works {b : Book comHash α} {s : ShmMdPlus α} {c : Call α} {done todo : List (Write α)}
      (represented : Represents M N b s) (lengths : Lengths N s)
      (known : ∀ key i, map.lookup key = some i → s.mInstrumentsAddress.lookup key = some i)
      (stores : s.rtnDataWrites c = done ++ todo)
      (updates : ∀ key, total key =
        b.updates key ++ if (s.call c).2 ∧ c.key = key then [c.newData] else []) :
      Midway M N map total { (s.call c).1 with shm := s.shm.writes done } todo
  | copies {b : Book comHash α} {s : ShmMdPlus α} {c : Call α} {done todo : List (Write α)}
      {i slot : Nat} {newData : α} (partly : α)
      (represented : Represents M N b s) (lengths : Lengths N s)
      (known : ∀ key i, map.lookup key = some i → s.mInstrumentsAddress.lookup key = some i)
      (stores : s.rtnDataWrites c = done ++ .storeDat i slot newData :: todo)
      (updates : ∀ key, total key =
        b.updates key ++ if (s.call c).2 ∧ c.key = key then [c.newData] else []) :
      Midway M N map total
        { (s.call c).1 with shm := (s.shm.writes done).write (.storeDat i slot partly) }
        (.storeDat i slot newData :: todo)

namespace Midway

variable {map : AddressMap} {total : UInt64 → List α} {key : UInt64}

theorem shows (h : Midway M N map total s todo) (pos : 1 ≤ N) (found : map.lookup key = some i) :
    ∃ k, MdHeadPlus.Shows N (total key) k (s.shm.record i) := by
  cases h with
  | rests represented lengths known updates =>
      have own := known key i found
      obtain ⟨inside, -⟩ := represented.of_lookup own
      have len := lengths.len i (represented.next ▸ inside)
      have between := (represented.keeps_lookup own).shows pos len []
      rw [List.append_nil, ← updates key] at between
      exact ⟨_, between⟩
  | works represented lengths known stores updates =>
      rw [updates key]
      exact represented.shows lengths pos stores (known key i found)
  | @copies b s c done todo i' slot newData partly represented lengths known stores updates =>
      have own := known key i found
      rw [updates key]
      by_cases same : i' = i
      · subst same
        obtain ⟨rfl, rfl⟩ := represented.storing_first stores own
        obtain ⟨inside, -⟩ := represented.of_lookup own
        have len := lengths.len i' (represented.next ▸ inside)
        have storing := (represented.keeps_lookup own).shows_storing len
          (if (s.call c).2 ∧ c.key = key then [c.newData] else []) partly
        refine ⟨(b.updates key).length, ?_⟩
        dsimp only
        rw [Region.write, Region.modify_record_self]
        exact storing
      · have elsewhere : (Write.storeDat i' slot partly).record? ≠ some i :=
          fun here => same (Option.some.inj here)
        dsimp only
        rw [Region.write_record_of_ne elsewhere]
        exact represented.shows lengths pos stores own

/-- The writer after its last store. -/
theorem rested (h : Midway M N map total s []) : ∃ b, Represents M N b s ∧ Lengths N s ∧
    (∀ key i, map.lookup key = some i → s.mInstrumentsAddress.lookup key = some i) ∧
    ∀ key, total key = b.updates key := by
  generalize none : ([] : List (Write α)) = todo at h
  cases h with
  | rests represented lengths known updates => exact ⟨_, represented, lengths, known, updates⟩
  | copies => cases none
  | @works b s c done _ represented lengths known stores updates =>
      subst none
      have complete : s.shm.writes done = (s.call c).1.shm := by
        rw [← List.append_nil done, ← stores]
        exact s.writes_writesOf (.onRtnData c)
      rw [complete]
      obtain ⟨b', offer, represented'⟩ :=
        represented.onRtnData c.instrumentID c.newData c.compare
      refine ⟨b', represented', lengths.call c, fun key i found => ?_, fun key => ?_⟩
      · exact (represented.onRtnData_frame c.instrumentID c.newData c.compare
          (known key i found)).1
      · rw [updates key]
        exact (offer.updates_eq key).symm

/-- The next call begins. -/
theorem call (h : Midway M N map total s []) (c : Call α) :
    Midway M N map (fun key => total key ++ if (s.call c).2 ∧ c.key = key then [c.newData] else [])
      { (s.call c).1 with shm := s.shm } (s.rtnDataWrites c) := by
  obtain ⟨b, represented, lengths, known, updates⟩ := h.rested
  change Midway M N map _ { (s.call c).1 with shm := s.shm.writes [] } _
  refine works represented lengths known rfl fun key => ?_
  rw [updates key]

/-- The next store. -/
theorem write (h : Midway M N map total s (w :: todo)) :
    Midway M N map total { s with shm := s.shm.write w } todo := by
  generalize some : w :: todo = all at h
  cases h with
  | rests => cases some
  | @works b s c done _ represented lengths known stores updates =>
      subst some
      have next : (s.shm.writes done).write w = s.shm.writes (done ++ [w]) := by
        rw [Region.writes_append]
        rfl
      rw [next]
      refine works represented lengths known ?_ updates
      rw [stores, List.append_assoc]
      rfl
  | @copies b s c done todo i slot newData partly represented lengths known stores updates =>
      obtain ⟨rfl, rfl⟩ := List.cons.inj some
      have next : ((s.shm.writes done).write (.storeDat i slot partly)).write
          (.storeDat i slot newData) = s.shm.writes (done ++ [.storeDat i slot newData]) := by
        rw [Region.write_storeDat_storeDat, Region.writes_append]
        rfl
      dsimp only
      rw [next]
      refine works represented lengths known ?_ updates
      rw [stores, List.append_assoc]
      rfl

/-- The copy goes on. -/
theorem copy {slot : Nat} {newData : α}
    (h : Midway M N map total s (.storeDat i slot newData :: todo)) (partly : α) :
    Midway M N map total { s with shm := s.shm.write (.storeDat i slot partly) }
      (.storeDat i slot newData :: todo) := by
  generalize some : .storeDat i slot newData :: todo = all at h
  cases h with
  | rests => cases some
  | works represented lengths known stores updates =>
      subst some
      exact copies partly represented lengths known stores updates
  | @copies b s c done todo i slot newData earlier represented lengths known stores updates =>
      obtain ⟨same, rfl⟩ := List.cons.inj some
      cases same
      dsimp only
      rw [Region.write_storeDat_storeDat]
      exact copies partly represented lengths known stores updates

theorem live (h : Midway M N map total s (.incIndex i :: todo)) :
    0 ≤ (s.shm.record i).currentIndex := by
  generalize some : .incIndex i :: todo = all at h
  cases h with
  | rests => cases some
  | copies => cases some
  | works represented _ _ stores =>
      subst some
      exact represented.live_of_counting stores

theorem index (h : Midway M N map total s (w :: todo)) (uncounted : ∀ i, w ≠ .incIndex i)
    (i : Nat) : ((s.shm.write w).record i).currentIndex.toNat =
      (s.shm.record i).currentIndex.toNat := by
  generalize some : w :: todo = all at h
  cases h with
  | rests => cases some
  | works represented _ _ stores =>
      subst some
      exact represented.index_of_uncounted stores uncounted i
  | copies =>
      obtain ⟨rfl, -⟩ := List.cons.inj some
      rw [Region.storeDat_currentIndex]

end Midway
end ShmMdPlus
end RazorCrypto.Shm
