import Mathlib.Algebra.BigOperators.Ring.Finset
import RazorCrypto.Shm.Plus.Refinement

/-!
# The invariant of the store over all runs

A run is any finite sequence of `on_rtn_data` calls on a freshly created and
initialised store. Its log lists the accepted updates under the hash of their
instrument, in the order of the calls that returned `true`. The run lemma carries the
refinement of `Represents` along, and everything that the store promises about its
shared memory is read off the book in its last state.
-/

universe u

namespace RazorCrypto.Shm

variable {α : Type u}

/-- The arguments of one call of `on_rtn_data`. -/
structure Call (α : Type u) where
  instrumentID : Name
  newData : α
  compare : Option (α → α → Bool)

/-- The key under which the store finds the instrument of a call. -/
def Call.key (c : Call α) : UInt64 := comHash (cStr c.instrumentID)

/-- The updates logged under one key. -/
def history (log : List (UInt64 × α)) (key : UInt64) : List α :=
  log.filterMap fun entry => if entry.1 = key then some entry.2 else none

theorem history_append (log : List (UInt64 × α)) (key key' : UInt64) (newData : α) :
    history (log ++ [(key', newData)]) key =
      history log key ++ if key' = key then [newData] else [] := by
  by_cases same : key' = key <;> simp [history, same]

namespace ShmMdPlus

variable [MarketData α]

/-- One call of `on_rtn_data`. -/
def call (s : ShmMdPlus α) (c : Call α) : ShmMdPlus α × Bool :=
  s.onRtnData c.instrumentID c.newData c.compare

/-- One call, with the log of accepted updates. -/
def logged (t : ShmMdPlus α × List (UInt64 × α)) (c : Call α) :
    ShmMdPlus α × List (UInt64 × α) :=
  let result := t.1.call c
  (result.1, if result.2 then t.2 ++ [(c.key, c.newData)] else t.2)

/-- The state and the log after a sequence of calls. -/
def run (s : ShmMdPlus α) (calls : List (Call α)) : ShmMdPlus α × List (UInt64 × α) :=
  calls.foldl logged (s, [])

theorem run_concat (s : ShmMdPlus α) (calls : List (Call α)) (c : Call α) :
    s.run (calls ++ [c]) = logged (s.run calls) c := by
  rw [run, List.foldl_append]
  rfl

/-- The names of the instruments that are registered after a sequence of calls. -/
def roster (M : Nat) (instruments : List Name) (calls : List (Call α)) : List Name :=
  calls.foldl (fun names c => Book.enlist comHash M names (cStr c.instrumentID)) instruments

/-- A run of calls is a run of offers: the store keeps a book whose names are the roster
and whose updates are the logged ones. -/
theorem run_represents {M N : Nat} {instruments : List Name}
    {distinct : (instruments.map comHash).Nodup} {s : ShmMdPlus α}
    (h : Represents M N (Book.opened instruments distinct) s) (calls : List (Call α)) :
    ∃ b : Book comHash α, Represents M N b (s.run calls).1 ∧
      b.names = roster M instruments calls ∧
      ∀ key, b.updates key = history (s.run calls).2 key := by
  induction calls using List.reverseRecOn with
  | nil => exact ⟨_, h, rfl, fun _ => rfl⟩
  | append_singleton calls c ih =>
      obtain ⟨b, represented, names, updates⟩ := ih
      obtain ⟨b', offer, represented'⟩ :=
        represented.onRtnData c.instrumentID c.newData c.compare
      refine ⟨b', ?_, ?_, ?_⟩
      · rw [run_concat]
        exact represented'
      · rw [offer.names_eq, names, roster, roster, List.foldl_append]
        rfl
      · intro key
        rw [offer.updates_eq key, updates key, run_concat]
        change _ = history (if ((s.run calls).1.call c).2 then _ else _) key
        cases ok : ((s.run calls).1.call c).2 with
        | false =>
            change ((s.run calls).1.onRtnData _ _ _).2 = false at ok
            simp [ok]
        | true =>
            change ((s.run calls).1.onRtnData _ _ _).2 = true at ok
            rw [if_pos rfl, history_append]
            by_cases same : comHash (cStr c.instrumentID) = key <;> simp [ok, Call.key, same]

/-- `get_update_num` counts the updates of the key. -/
theorem Represents.getUpdateNum {M N : Nat} {b : Book comHash α} {s : ShmMdPlus α}
    (h : Represents M N b s) (name : Name) :
    s.getUpdateNum name = (b.updates (comHash name)).length := by
  unfold ShmMdPlus.getUpdateNum
  cases found : s.mInstrumentsAddress.lookup (comHash name) with
  | some i => exact (h.keeps_lookup found).index
  | none =>
      rw [b.unlisted _ (h.lookup_eq_none_iff.mp found)]
      rfl

/-- The registered instruments are counted by the address map. -/
theorem Represents.length_entries {M N : Nat} {b : Book comHash α} {s : ShmMdPlus α}
    (h : Represents M N b s) : s.mInstrumentsAddress.entries.length = b.names.length := by
  have perm := (h.keys_perm b.distinct).length_eq
  simpa [AList.keys, List.keys] using perm

/-- The counters of the registered records add up to the updates of the book. -/
theorem Represents.sum_currentIndex {M N : Nat} {b : Book comHash α} {s : ShmMdPlus α}
    (h : Represents M N b s) :
    (s.mInstrumentsAddress.entries.map fun e => (s.shm.record e.2).currentIndex).sum =
      (b.total : Int) := by
  have counts : (s.mInstrumentsAddress.entries.map fun e =>
      (s.shm.record e.2).currentIndex) =
      (s.mInstrumentsAddress.keys.map fun key => (b.updates key).length).map Nat.cast := by
    rw [AList.keys, List.keys, List.map_map, List.map_map]
    apply List.map_congr_left
    intro e member
    have found := AList.mem_lookup_iff.mpr member
    exact (h.keeps_lookup found).index
  have perm := (h.keys_perm b.distinct).map fun key => (b.updates key).length
  rw [counts, ← Nat.cast_list_sum, perm.sum_eq]
  rfl

/-- What the store promises in every reachable state. Instruments are identified by the
hash of their name, as everywhere in the code. -/
structure StoreInvariant (M N : Nat) (log : List (UInt64 × α)) (s : ShmMdPlus α) :
    Prop where
  count : ∀ key i, s.mInstrumentsAddress.lookup key = some i →
    (s.shm.record i).currentIndex = (history log key).length
  slots : ∀ key i, s.mInstrumentsAddress.lookup key = some i →
    ∀ j (accepted : j < (history log key).length), (history log key).length - N ≤ j →
      (s.shm.record i).dat (j % N) = (history log key)[j]
  newest : ∀ name, s.mInstrumentsAddress.lookup (comHash name) ≠ none →
    ∀ nonempty : history log (comHash name) ≠ [],
      s.getCurMd name = some ((history log (comHash name)).getLast nonempty)
  total : (s.shm.head.updateNum : Int) =
    (s.mInstrumentsAddress.entries.map fun e => (s.shm.record e.2).currentIndex).sum
  mdNum : s.shm.head.mdNum = s.mInstrumentsAddress.entries.length
  mMdNum : s.mMdNum = s.mInstrumentsAddress.entries.length
  room : s.mInstrumentsAddress.entries.length ≤ M
  separate : ∀ key key' i, s.mInstrumentsAddress.lookup key = some i →
    s.mInstrumentsAddress.lookup key' = some i → key = key'
  rejected : ∀ c : Call α, (s.call c).2 = false →
    (∀ key i, s.mInstrumentsAddress.lookup key = some i →
      (s.call c).1.mInstrumentsAddress.lookup key = some i ∧
        (s.call c).1.shm.record i = s.shm.record i) ∧
    (∀ name, (s.call c).1.getUpdateNum name = s.getUpdateNum name) ∧
    (s.call c).1.shm.head.updateNum = s.shm.head.updateNum

/-- Every state that a run of calls reaches from a fresh store keeps the invariant. -/
theorem store_invariant (page : Region α) {M N : Nat} {instruments : List Name}
    (capacity : M < 2147483648) (blocks : 1 ≤ N) (blocks' : N < 2147483648)
    (room : instruments.length ≤ M) (distinct : (instruments.map comHash).Nodup)
    (calls : List (Call α)) :
    StoreInvariant M N ((start page M N instruments).run calls).2
      ((start page M N instruments).run calls).1 := by
  obtain ⟨b, represented, -, updates⟩ :=
    run_represents (start_represents page capacity blocks' room distinct) calls
  generalize ((start page M N instruments).run calls).1 = s at represented
  generalize ((start page M N instruments).run calls).2 = log at updates
  have keeps : ∀ {key i}, s.mInstrumentsAddress.lookup key = some i →
      MdHeadPlus.Keeps N (history log key) (s.shm.record i) := by
    intro key i found
    rw [← updates key]
    exact represented.keeps_lookup found
  refine ⟨?_, ?_, ?_, ?_, ?_, ?_, ?_, ?_, ?_⟩
  · intro key i found
    exact (keeps found).index
  · intro key i found j accepted recent
    exact (keeps found).slots j accepted recent
  · intro name known nonempty
    obtain ⟨i, found⟩ := Option.ne_none_iff_exists'.mp known
    rw [getCurMd, found, Option.map_some, represented.blockNum,
      (keeps found).getCurMd (by omega) nonempty]
  · rw [represented.sum_currentIndex, represented.total]
  · rw [represented.length_entries, represented.mdNum]
  · rw [represented.length_entries, represented.count]
  · rw [represented.length_entries]
    exact represented.room
  · intro key key' i found found'
    exact represented.injective found found'
  · intro c rejected
    obtain ⟨b', offer, represented'⟩ :=
      represented.onRtnData c.instrumentID c.newData c.compare
    change (s.onRtnData _ _ _).2 = false at rejected
    rw [rejected] at offer
    refine ⟨?_, ?_, ?_⟩
    · intro key i found
      obtain ⟨address, -, record⟩ :=
        represented.onRtnData_frame c.instrumentID c.newData c.compare found
      refine ⟨address, record.resolve_right ?_⟩
      rintro ⟨-, accepted⟩
      rw [accepted] at rejected
      cases rejected
    · intro name
      change (s.onRtnData _ _ _).1.getUpdateNum name = _
      rw [represented'.getUpdateNum, represented.getUpdateNum, offer.updates_of_false]
    · change (s.onRtnData _ _ _).1.shm.head.updateNum = _
      rw [represented'.total, represented.total, offer.total_of_false]

theorem store_invariant_two :
    StoreInvariant 2 1
      ((start Region.zeroed 2 1 [[65], [66]]).run [⟨[65], (7 : UInt64), none⟩]).2
      ((start Region.zeroed 2 1 [[65], [66]]).run [⟨[65], (7 : UInt64), none⟩]).1 :=
  store_invariant Region.zeroed (by decide) (by decide) (by decide) (by decide) (by decide)
    [⟨[65], 7, none⟩]

end ShmMdPlus
end RazorCrypto.Shm
