import RazorCrypto.Shm.Plus.Initialization

/-!
# The address map and the record labels

`Addresses s names` says that the address map of `s` resolves exactly the listed names,
each to the record at its place in the list, and that this record is live and carries
the name as its label. Registration and updates keep it. An initialisation keeps it only
for names that it enters at the place the map already has for them, because `insert`
never moves a key.
-/

universe u

namespace RazorCrypto.Shm.ShmMdPlus

open MachineInt

variable {α : Type u} [MarketData α]

/-- The address map resolves exactly the listed names, each to the record at its place,
which is live and carries its label. -/
structure Addresses (s : ShmMdPlus α) (names : List Name) : Prop where
  next : s.mNextEmptyMd = names.length
  lookup : ∀ key i, s.mInstrumentsAddress.lookup key = some i ↔
    (names.map comHash)[i]? = some key
  label : ∀ i (inside : i < names.length),
    (s.shm.record i).instrumentId = strncpy (List.replicate 16 0) names[i] 15
  live : ∀ i, i < names.length → 0 ≤ (s.shm.record i).currentIndex

namespace Addresses

variable {s : ShmMdPlus α} {names : List Name} {key key' : UInt64} {i : Nat}

omit [MarketData α] in
theorem of_lookup (h : Addresses s names) (found : s.mInstrumentsAddress.lookup key = some i) :
    ∃ inside : i < names.length, comHash names[i] = key := by
  have place := (h.lookup key i).mp found
  rw [List.getElem?_map, Option.map_eq_some_iff] at place
  obtain ⟨name, at_i, hash⟩ := place
  obtain ⟨inside, rfl⟩ := List.getElem?_eq_some_iff.mp at_i
  exact ⟨inside, hash⟩

omit [MarketData α] in
theorem lookup_getElem (h : Addresses s names) (inside : i < names.length) :
    s.mInstrumentsAddress.lookup (comHash names[i]) = some i := by
  apply (h.lookup _ i).mpr
  simp [inside]

omit [MarketData α] in
theorem lookup_eq_none_iff (h : Addresses s names) :
    s.mInstrumentsAddress.lookup key = none ↔ key ∉ names.map comHash := by
  constructor
  · intro absent listed
    obtain ⟨i, inside, value⟩ := List.mem_iff_getElem.mp listed
    have found := (h.lookup key i).mpr (value ▸ List.getElem?_eq_getElem inside)
    rw [absent] at found
    cases found
  · intro unlisted
    cases found : s.mInstrumentsAddress.lookup key with
    | none => rfl
    | some i =>
        exact absurd (List.mem_of_getElem? ((h.lookup key i).mp found)) unlisted

omit [MarketData α] in
theorem name_eq (h : Addresses s names) (inside : i < names.length) :
    (s.shm.record i).name = stored names[i] := by
  rw [MdHeadPlus.name, h.label i inside]
  exact cStr_strncpy_zeros names[i] 15

omit [MarketData α] in
/-- Different keys have different records. -/
theorem injective (h : Addresses s names)
    (found : s.mInstrumentsAddress.lookup key = some i)
    (found' : s.mInstrumentsAddress.lookup key' = some i) : key = key' := by
  have same := ((h.lookup key i).mp found).symm.trans ((h.lookup key' i).mp found')
  exact Option.some.inj same

omit [MarketData α] in
/-- The keys of the address map are the hashes of the listed names. -/
theorem keys_perm (h : Addresses s names) (distinct : (names.map comHash).Nodup) :
    s.mInstrumentsAddress.keys.Perm (names.map comHash) := by
  rw [List.perm_ext_iff_of_nodup (AList.keys_nodup _) distinct]
  intro key
  rw [← AList.mem_keys]
  by_cases listed : key ∈ names.map comHash
  · have found := mt h.lookup_eq_none_iff.mp (not_not_intro listed)
    exact iff_of_true (by simpa [AList.lookup_eq_none] using found) listed
  · exact iff_of_false (AList.lookup_eq_none.mp (h.lookup_eq_none_iff.mpr listed)) listed

end Addresses

omit [MarketData α] in
theorem acceptUpdate_record_of_ne {s : ShmMdPlus α} {i j : Nat} (newData : α) (ne : j ≠ i) :
    (s.acceptUpdate i newData).shm.record j = s.shm.record j :=
  Function.update_of_ne ne ..

theorem registerInstrument_record_of_ne {s : ShmMdPlus α} {j : Nat} (name : Name)
    (ne : j ≠ s.mNextEmptyMd) : (s.registerInstrument name).shm.record j = s.shm.record j :=
  Function.update_of_ne ne ..

namespace Addresses

variable {s : ShmMdPlus α} {names : List Name}

omit [MarketData α] in
theorem acceptUpdate (h : Addresses s names) (i : Nat) (newData : α) :
    Addresses (s.acceptUpdate i newData) names := by
  have self : (s.acceptUpdate i newData).shm.record i =
      (s.shm.record i).store s.mdBlockNum newData := Function.update_self ..
  refine ⟨h.next, h.lookup, ?_, ?_⟩
  · intro j listed
    by_cases same : j = i
    · subst same
      rw [self]
      exact h.label j listed
    · rw [acceptUpdate_record_of_ne newData same]
      exact h.label j listed
  · intro j listed
    have live := h.live j listed
    by_cases same : j = i
    · subst same
      rw [self]
      change 0 ≤ (s.shm.record j).currentIndex + 1
      omega
    · rwa [acceptUpdate_record_of_ne newData same]

/-- What is at a place of a list with a new last element. -/
theorem getElem?_concat_eq_some_iff {keys : List UInt64} {new key : UInt64} {i : Nat} :
    (keys ++ [new])[i]? = some key ↔ keys[i]? = some key ∨ i = keys.length ∧ new = key := by
  obtain before | last | behind := Nat.lt_trichotomy i keys.length
  · simp [List.getElem?_append_left before, Nat.ne_of_lt before]
  · simp [last]
  · simp only [List.getElem?_append_right behind.le, List.getElem?_eq_none behind.le]
    simp [Nat.ne_of_gt behind, Nat.sub_ne_zero_of_lt behind]

/-- Registering a new name enters it at the end of the list. -/
theorem registerInstrument (h : Addresses s names) {name : Name}
    (fresh : comHash name ∉ names.map comHash) :
    Addresses (s.registerInstrument name) (names ++ [name]) := by
  have absent := h.lookup_eq_none_iff.mpr fresh
  have other : ∀ j, j ≠ names.length →
      (s.registerInstrument name).shm.record j = s.shm.record j := by
    intro j ne
    rw [← h.next] at ne
    exact registerInstrument_record_of_ne name ne
  have self : (s.registerInstrument name).shm.record names.length =
      MdHeadPlus.labelled name s.mdBlockNum := by
    rw [← h.next]
    exact Function.update_self ..
  refine ⟨?_, ?_, ?_, ?_⟩
  · change s.mNextEmptyMd + 1 = _
    rw [h.next, List.length_append, List.length_singleton]
  · intro key i
    change (s.mInstrumentsAddress.insertNew (comHash name) s.mNextEmptyMd).lookup key = _ ↔ _
    rw [AddressMap.lookup_insertNew, absent, Option.getD_none, h.next, List.map_append,
      List.map_singleton, getElem?_concat_eq_some_iff, ← h.lookup]
    by_cases new : key = comHash name
    · subst new
      simp [absent, eq_comm]
    · simp [new, Ne.symm new]
  · intro i inside
    by_cases last : i = names.length
    · subst last
      rw [self]
      simp [MdHeadPlus.labelled]
    · have inside' : i < names.length := by
        rw [List.length_append, List.length_singleton] at inside
        omega
      rw [other i last]
      simpa [List.getElem_append_left inside'] using h.label i inside'
  · intro i inside
    by_cases last : i = names.length
    · subst last
      rw [self]
      exact Int.le_refl 0
    · rw [List.length_append, List.length_singleton] at inside
      rw [other i last]
      exact h.live i (by omega)

end Addresses

/-- `init_shm` never moves an entry of the address map. -/
theorem Initialized.lookup_of_some {s t : ShmMdPlus α} {names : List Name} {key : UInt64}
    {i : Nat} (h : Initialized s names t) (found : s.mInstrumentsAddress.lookup key = some i) :
    t.mInstrumentsAddress.lookup key = some i := by
  rw [h.lookup, found, Option.some_or]

theorem Initialized.name_eq {s t : ShmMdPlus α} {names : List Name} {i : Nat}
    (h : Initialized s names t) (inside : i < names.length) :
    (t.shm.record i).name = stored names[i] := by
  rw [h.labelled i inside]
  exact cStr_strncpy_zeros names[i] 15

/-- After `init_shm` on a store whose address map already resolves a first part of the
names, to their places, it resolves all of them. -/
theorem Initialized.addresses {s t : ShmMdPlus α} {names known : List Name}
    (h : Initialized s names t) (distinct : (names.map comHash).Nodup)
    (extends_known : known <+: names)
    (old : ∀ key i, s.mInstrumentsAddress.lookup key = some i ↔
      (known.map comHash)[i]? = some key) : Addresses t names := by
  refine ⟨h.next, ?_, ?_, ?_⟩
  · intro key i
    have place : ∀ i, (names.map comHash).idxOf? key = some i ↔
        (names.map comHash)[i]? = some key := by
      intro i
      rw [List.idxOf?_eq_some_iff, List.getElem?_eq_some_iff]
      constructor
      · rintro ⟨inside, value, -⟩
        exact ⟨inside, value⟩
      · rintro ⟨inside, value⟩
        refine ⟨inside, value, ?_⟩
        intro j before equal
        have same := (distinct.getElem_inj_iff).mp (equal.trans value.symm)
        omega
    rw [h.lookup key]
    cases found : s.mInstrumentsAddress.lookup key with
    | none => simpa using place i
    | some j =>
        have known_j := (old key j).mp found
        have kept : (names.map comHash)[j]? = some key := by
          obtain ⟨rest, rfl⟩ := extends_known
          have inside := (List.getElem?_eq_some_iff.mp known_j).1
          rw [List.map_append, List.getElem?_append_left inside]
          exact known_j
        rw [Option.some_or, Option.some.injEq, ← place i, (place j).mpr kept, Option.some.injEq]
  · intro i inside
    rw [h.labelled i inside]
    rfl
  · intro i inside
    rw [h.labelled i inside]
    exact Int.le_refl 0

end RazorCrypto.Shm.ShmMdPlus
