import RazorCrypto.Shm.Plus.Invariant

/-!
# What the update filter compares with

`on_rtn_data` hands its callback the slot that is about to be written, not the slot of the
newest update. With `N` slots it holds the update from one lap before, or still zeroed
memory, so that the filter sees the current tick only where these are equal.
-/

universe u

namespace RazorCrypto.Shm

variable {α : Type u} [MarketData α]

namespace MdHeadPlus

variable {r : MdHeadPlus α} {N : Nat} {us : List α}

/-- The next slot holds the update from one lap before. -/
theorem Keeps.dat_nextOffset_of_le (h : Keeps N us r) (pos : 0 < N)
    (lapped : N ≤ us.length) :
    us[us.length - N]? = some (r.dat (r.nextOffset N)) := by
  have inside : us.length - N < us.length := by omega
  have slot := h.slots (us.length - N) inside (Nat.le_refl _)
  have same : (us.length - N + 0) % N = us.length % N := (Nat.mod_eq_sub_mod lapped).symm
  rw [nextOffset_eq h.index, List.getElem?_eq_getElem inside, ← slot, same]

/-- In the first lap the next slot is still zero. -/
theorem Keeps.dat_nextOffset_of_lt (h : Keeps N us r) (first : us.length < N) :
    r.dat (r.nextOffset N) = 0 := by
  rw [nextOffset_eq h.index, Nat.mod_eq_of_lt first]
  exact h.fresh _ (Nat.le_refl _) first

end MdHeadPlus

namespace ShmMdPlus

omit [MarketData α] in
/-- `old_md`: what `on_rtn_data` passes to its callback for a known instrument. -/
def oldMd (s : ShmMdPlus α) (instrumentID : Name) : Option α :=
  (s.mInstrumentsAddress.lookup (comHash (cStr instrumentID))).map fun index =>
    (s.shm.record index).dat ((s.shm.record index).nextOffset s.mdBlockNum)

/-- The callback decides on `old_md` and the new data. -/
theorem onRtnData_eq_compare {s : ShmMdPlus α} (attached : s.mShmHead = true)
    {instrumentID : Name} {old : α} (passed : s.oldMd instrumentID = some old) (newData : α)
    (compare : α → α → Bool) :
    (s.onRtnData instrumentID newData (some compare)).2 = compare old newData := by
  obtain ⟨index, found, rfl⟩ := Option.map_eq_some_iff.mp passed
  rw [onRtnData, if_neg (by simp [attached])]
  simp only [found, offerUpdate]
  split
  · simp [*]
  · simp [*]

/-- In a record that took updates, `old_md` is the newest update exactly if it equals the one
from a lap before, or the zero value as long as there is none. -/
theorem oldMd_eq_iff {N : Nat} {us : List α} {s : ShmMdPlus α} {instrumentID : Name}
    {index : Nat} (keeps : MdHeadPlus.Keeps N us (s.shm.record index)) (pos : 0 < N)
    (blockNum : s.mdBlockNum = N)
    (found : s.mInstrumentsAddress.lookup (comHash (cStr instrumentID)) = some index)
    (newest : α) : s.oldMd instrumentID = some newest ↔
      (N ≤ us.length → us[us.length - N]? = some newest) ∧ (us.length < N → newest = 0) := by
  have passed : s.oldMd instrumentID =
      some ((s.shm.record index).dat ((s.shm.record index).nextOffset N)) := by
    rw [oldMd, found, Option.map_some, blockNum]
  by_cases lapped : N ≤ us.length
  · rw [passed, ← keeps.dat_nextOffset_of_le pos lapped]
    simp [lapped]
  · have first : us.length < N := Nat.lt_of_not_le lapped
    rw [passed, keeps.dat_nextOffset_of_lt first, Option.some_inj, eq_comm]
    simp [lapped, first]

/-- After any run of calls, for an instrument with an update: `get_cur_md` returns the newest
update, and the callback is passed this one exactly if it equals the update from a lap before,
or the zero value as long as there is none. -/
theorem oldMd_newest_iff (page : Region α) {M N : Nat} {instruments : List Name}
    (capacity : M < 2147483648) (blocks : 1 ≤ N) (blocks' : N < 2147483648)
    (room : instruments.length ≤ M) (distinct : (instruments.map comHash).Nodup)
    (calls : List (Call α)) (instrumentID : Name) {us : List α}
    (accepted : history ((start page M N instruments).run calls).2
      (comHash (cStr instrumentID)) = us) (nonempty : us ≠ []) :
    ((start page M N instruments).run calls).1.getCurMd (cStr instrumentID) =
      some (us.getLast nonempty) ∧
    (((start page M N instruments).run calls).1.oldMd instrumentID =
        some (us.getLast nonempty) ↔
      (N ≤ us.length → us[us.length - N]? = some (us.getLast nonempty)) ∧
        (us.length < N → us.getLast nonempty = 0)) := by
  obtain ⟨b, represented, -, updates⟩ :=
    run_represents (start_represents page capacity blocks' room distinct) calls
  have logged := updates (comHash (cStr instrumentID))
  rw [accepted] at logged
  generalize ((start page M N instruments).run calls).1 = s at represented
  cases found : s.mInstrumentsAddress.lookup (comHash (cStr instrumentID)) with
  | none =>
      rw [b.unlisted _ (represented.lookup_eq_none_iff.mp found)] at logged
      exact absurd logged.symm nonempty
  | some index =>
      have keeps := represented.keeps_lookup found
      rw [logged] at keeps
      refine ⟨?_, oldMd_eq_iff keeps blocks represented.blockNum found _⟩
      rw [getCurMd, found, Option.map_some, represented.blockNum,
        keeps.getCurMd blocks nonempty]

/-- With one slot, the callback sees the newest update. -/
theorem oldMd_newest_one :
    ((start (Region.zeroed : Region UInt64) 1 1 [[65]]).run
      [⟨[65], 7, none⟩, ⟨[65], 9, none⟩]).1.oldMd [65] = some 9 := by
  have accepted : history ((start (Region.zeroed : Region UInt64) 1 1 [[65]]).run
      [⟨[65], 7, none⟩, ⟨[65], 9, none⟩]).2 (comHash (cStr [65])) = [7, 9] := by decide +kernel
  have newest := oldMd_newest_iff Region.zeroed (by decide) (Nat.le_refl 1) (by decide)
    (Nat.le_refl 1) (by decide) [⟨[65], 7, none⟩, ⟨[65], 9, none⟩] [65] accepted
    (List.cons_ne_nil _ _)
  exact newest.2.mpr ⟨fun _ => rfl, fun first => absurd first (by decide)⟩

/-- With two slots and updates 7 and 9, it sees 7. -/
theorem oldMd_one_lap_old :
    ((start (Region.zeroed : Region UInt64) 1 2 [[65]]).run
      [⟨[65], 7, none⟩, ⟨[65], 9, none⟩]).1.getCurMd [65] = some 9 ∧
    ((start (Region.zeroed : Region UInt64) 1 2 [[65]]).run
      [⟨[65], 7, none⟩, ⟨[65], 9, none⟩]).1.oldMd [65] = some 7 := by
  decide +kernel

end ShmMdPlus
end RazorCrypto.Shm
