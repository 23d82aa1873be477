import RazorCrypto.Shm.Plus.OpenOrCreate

/-!
# A store and its readers over time

A store that was created for some instruments has no room for others. Where no call of
`on_rtn_data` compares, it takes the updates of its instruments, every one of them, and refuses
all others. A reader that attached at any time finds in the region, at any later time, what the
writer finds there: nothing that a reader keeps for itself depends on the updates.
-/

universe u

namespace RazorCrypto.Shm.ShmMdPlus

open MachineInt

variable {α : Type u} [MarketData α]

/-- The store was created for these instruments and then offered these updates, each under the
hash of its instrument. -/
def Serves (names : List Name) (N : Nat) (offered : List (UInt64 × α)) (s : ShmMdPlus α) : Prop :=
  ∃ b : Book comHash α, Represents names.length N b s ∧ b.names = names ∧
    (∀ key ∈ names.map comHash, b.updates key = history offered key) ∧
    b.total = (offered.filter fun update => update.1 ∈ names.map comHash).length

/-- An object as it reads its region at another time. -/
def seeing (s : ShmMdPlus α) (shm : Region α) : ShmMdPlus α := { s with shm := shm }

/-- The last of the updates under a key, or zeroed memory if there is none. -/
def latest (offered : List (UInt64 × α)) (key : UInt64) : α :=
  (history offered key).getLast?.getD 0

variable {names : List Name} {N : Nat} {offered offered' : List (UInt64 × α)} {s s' : ShmMdPlus α}
  {name : Name}

omit [MarketData α] in
/-- Before the first update, `get_cur_md` points to the first slot. -/
theorem curOffset_zero {record : MdHeadPlus α} (index : record.currentIndex = 0) :
    record.curOffset N = 0 := by
  have rest : 0 ≤ Int.tmod 1 N := Int.tmod_nonneg _ (by decide)
  rw [MdHeadPlus.curOffset, index, Int.zero_sub, Int.neg_tmod]
  split
  · rfl
  · omega

namespace Serves

theorem start (page : Region α) (count : names.length < 2147483648) (blocks : N < 2147483648)
    (distinct : (names.map comHash).Nodup) :
    Serves names N [] (start page names.length N names) := by
  refine ⟨Book.opened names distinct, ?_, rfl, fun _ _ => rfl, Book.total_opened names distinct⟩
  exact start_represents page count blocks (Nat.le_refl _) distinct

theorem full (h : Serves names N offered s) : s.Full := by
  obtain ⟨b, represented, rfl, -, -⟩ := h
  refine ⟨represented.attached, ?_⟩
  rw [represented.room_iff]
  omega

theorem lookup_eq_none_iff (h : Serves names N offered s) (key : UInt64) :
    s.mInstrumentsAddress.lookup key = none ↔ key ∉ names.map comHash := by
  obtain ⟨b, represented, rfl, -, -⟩ := h
  exact represented.lookup_eq_none_iff

/-- An update of an instrument of the store is taken. -/
theorem accept (h : Serves names N offered s) {key : UInt64} {i : Nat}
    (found : s.mInstrumentsAddress.lookup key = some i) (newData : α) :
    Serves names N (offered ++ [(key, newData)]) (s.acceptUpdate i newData) := by
  obtain ⟨b, represented, rfl, updates, total⟩ := h
  have listed : key ∈ b.names.map comHash :=
    List.mem_of_getElem? ((represented.lookup _ i).mp found)
  refine ⟨b.accept key listed newData, represented.acceptUpdate found listed newData, rfl, ?_, ?_⟩
  · intro other known
    rw [Book.accept_updates, history_append]
    by_cases same : other = key
    · subst same
      rw [Function.update_self, updates other known, if_pos rfl]
    · rw [Function.update_of_ne same, if_neg (Ne.symm same), List.append_nil]
      exact updates other known
  · rw [Book.total_accept, total, List.filter_append, List.length_append]
    rw [List.filter_singleton, decide_eq_true listed]
    rfl

/-- An update of an unknown instrument changes nothing. -/
theorem refuse (h : Serves names N offered s) {key : UInt64} (unlisted : key ∉ names.map comHash)
    (newData : α) : Serves names N (offered ++ [(key, newData)]) s := by
  obtain ⟨b, represented, rfl, updates, total⟩ := h
  refine ⟨b, represented, rfl, fun other known => ?_, ?_⟩
  · have ne : key ≠ other := fun same => unlisted (same ▸ known)
    rw [history_append, if_neg ne, List.append_nil]
    exact updates other known
  · rw [total, List.filter_append, List.filter_singleton, decide_eq_false unlisted]
    exact congrArg List.length (List.append_nil _).symm

/-- A call that does not compare returns `true` exactly for the instruments of the store. -/
theorem onRtnData (h : Serves names N offered s) (instrumentID : Name) (newData : α) :
    Serves names N (offered ++ [(comHash (cStr instrumentID), newData)])
        (s.onRtnData instrumentID newData none).1 ∧
      ((s.onRtnData instrumentID newData none).2 = true ↔
        comHash (cStr instrumentID) ∈ names.map comHash) := by
  rw [h.full.onRtnData_eq]
  have known := h.lookup_eq_none_iff (comHash (cStr instrumentID))
  cases found : s.mInstrumentsAddress.lookup (comHash (cStr instrumentID)) with
  | none => exact ⟨h.refuse (known.mp found) newData, iff_of_false nofun (known.mp found)⟩
  | some i =>
      have listed := fun unlisted => Option.some_ne_none i (found.symm.trans (known.mpr unlisted))
      exact ⟨h.accept found newData, iff_of_true rfl (not_not.mp listed)⟩

/-- The address and the updates of an instrument of the store. -/
theorem keeps (h : Serves names N offered s) (listed : comHash name ∈ names.map comHash) :
    ∃ i, s.mInstrumentsAddress.lookup (comHash name) = some i ∧ s.mdBlockNum = N ∧
      MdHeadPlus.Keeps N (history offered (comHash name)) (s.shm.record i) := by
  have known := (h.lookup_eq_none_iff (comHash name)).not_left.mpr listed
  obtain ⟨i, found⟩ := Option.ne_none_iff_exists'.mp known
  obtain ⟨b, represented, rfl, updates, -⟩ := h
  rw [← updates _ listed]
  exact ⟨i, found, represented.blockNum, represented.keeps_lookup found⟩

theorem getCurMd (h : Serves names N offered s) (blocks : 1 ≤ N)
    (listed : comHash name ∈ names.map comHash) :
    s.getCurMd name = some (latest offered (comHash name)) := by
  obtain ⟨i, found, blockNum, keeps⟩ := h.keeps listed
  rw [ShmMdPlus.getCurMd, found, Option.map_some, blockNum, latest]
  by_cases none : history offered (comHash name) = []
  · rw [none] at keeps ⊢
    rw [MdHeadPlus.getCurMd, curOffset_zero keeps.index, keeps.fresh 0 (Nat.le_refl 0) blocks]
    rfl
  · rw [keeps.getCurMd blocks none, List.getLast?_eq_some_getLast none]
    rfl

theorem getUpdateNum (h : Serves names N offered s) (listed : comHash name ∈ names.map comHash) :
    s.getUpdateNum name = (history offered (comHash name)).length := by
  obtain ⟨i, found, -, keeps⟩ := h.keeps listed
  rw [ShmMdPlus.getUpdateNum, found]
  exact keeps.index

theorem updateNum (h : Serves names N offered s) : s.shm.head.updateNum =
    (offered.filter fun update => update.1 ∈ names.map comHash).length := by
  obtain ⟨b, represented, -, -, total⟩ := h
  exact represented.total.trans total

/-- A reader that attached to the region of a store agrees with the store at any later time. -/
theorem reader_agrees (h : Serves names N offered s) (h' : Serves names N offered' s')
    (blocks : N < 2147483648) (short : ∀ name ∈ names, (∀ c ∈ name, c ≠ 0) ∧ name.length ≤ 15)
    {page : Region α} {shmSize fuel : Nat} {reader : ShmMdPlus α}
    (attached : (new page).getShm s.shm shmSize fuel = some reader) :
    Agrees s' (reader.seeing s'.shm) := by
  obtain ⟨b, represented, rfl, -, -⟩ := h
  obtain ⟨b', represented', names, -, -⟩ := h'
  obtain ⟨next, found, rfl⟩ := Option.map_eq_some_iff.mp attached
  obtain rfl := scanEnd_unique found (represented.scanEnd b.names.length.lt_succ_self)
  obtain ⟨reader, same, reads⟩ :=
    represented.getShm blocks page shmSize b.names.length.lt_succ_self
  rw [ShmMdPlus.getShm, represented.scanEnd b.names.length.lt_succ_self, Option.map_some,
    Option.some_inj] at same
  rw [← names] at short
  refine represented'.agrees_of_short ?_ short
  rw [same, names]
  -- Updates leave the labels alone, so that the rebuilt address map stays right.
  have label : ∀ i < b.names.length, (s'.shm.record i).name = (s.shm.record i).name := by
    intro i inside
    have inside' : i < b'.names.length := names.symm ▸ inside
    rw [represented.name_eq inside, represented'.name_eq inside']
    simp only [names]
  refine ⟨reads.attached, rfl, reads.blockNum, fun key i => (reads.lookup key i).trans ?_⟩
  refine and_congr_right fun inside => ?_
  rw [label i inside]
  refine and_congr_right fun _ => forall₃_congr fun j _ inside' => ?_
  show comHash (s.shm.record j).name ≠ key ↔ comHash (s'.shm.record j).name ≠ key
  rw [label j inside']

/-- A reader can always attach. -/
theorem exists_reader (h : Serves names N offered s) (blocks : N < 2147483648) (page : Region α)
    (shmSize : Nat) : ∃ fuel reader, (new page).getShm s.shm shmSize fuel = some reader := by
  obtain ⟨b, represented, -, -, -⟩ := h
  obtain ⟨reader, attached, -⟩ :=
    represented.getShm blocks page shmSize b.names.length.lt_succ_self
  exact ⟨_, reader, attached⟩

end Serves
end RazorCrypto.Shm.ShmMdPlus
