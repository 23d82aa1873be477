import Mathlib.Data.List.AList
import Mathlib.Data.List.Induction

/-!
# The address map of a store

`m_instruments_address` maps the hash of a name to the position of its record. It is a
finite map with unique keys, with the two ways in which the stores write to it:
`insert`, which keeps the entry of a key that is already there, and assignment
through `operator[]`, which replaces it (`AList.insert`).
-/

namespace RazorCrypto.Shm

/-- `m_instruments_address`, with records given by their position in the region. -/
abbrev AddressMap := AList fun _ : UInt64 => Nat

namespace AddressMap

/-- `insert` of a hash map: an existing key keeps its value. -/
def insertNew (map : AddressMap) (key : UInt64) (value : Nat) : AddressMap :=
  match map.lookup key with
  | some _ => map
  | none => map.insert key value

variable {map : AddressMap} {key : UInt64} {value old : Nat}

theorem insertNew_of_some (present : map.lookup key = some old) :
    map.insertNew key value = map := by
  simp [insertNew, present]

/-- A lookup after `insertNew`: the inserted key has its old value if it had one. -/
theorem lookup_insertNew (map : AddressMap) (key other : UInt64) (value : Nat) :
    (map.insertNew key value).lookup other =
      if other = key then some ((map.lookup key).getD value) else map.lookup other := by
  cases present : map.lookup key with
  | some old =>
      rw [insertNew_of_some present]
      split
      · next same => rw [same, present, Option.getD_some]
      · rfl
  | none =>
      simp only [insertNew, present, Option.getD_none]
      split
      · next same => rw [same, AList.lookup_insert]
      · next ne => exact AList.lookup_insert_ne ne

/-! ## Keys entered in order -/

/-- Each key of a list is assigned its place, in order. -/
def ofKeys (keys : List UInt64) : AddressMap :=
  keys.zipIdx.foldl (fun map entry => map.insert entry.1 entry.2) ∅

/-- `i` is the last place of `key` in a list. -/
def IsLast (keys : List UInt64) (key : UInt64) (i : Nat) : Prop :=
  keys[i]? = some key ∧ ∀ j, i < j → keys[j]? ≠ some key

variable {keys labels : List UInt64} {i j : Nat}

theorem ofKeys_concat (keys : List UInt64) (key : UInt64) :
    ofKeys (keys ++ [key]) = (ofKeys keys).insert key keys.length := by
  simp [ofKeys, List.zipIdx_append]

/-- A key is resolved to its last place. -/
theorem lookup_ofKeys : (ofKeys keys).lookup key = some i ↔ IsLast keys key i := by
  induction keys using List.reverseRecOn with
  | nil => simp [ofKeys, IsLast]
  | append_singleton keys last ih =>
      rw [ofKeys_concat]
      by_cases same : key = last
      · subst same
        rw [AList.lookup_insert, Option.some.injEq]
        constructor
        · rintro rfl
          refine ⟨List.getElem?_concat_length, ?_⟩
          intro j later
          rw [List.getElem?_eq_none (by rw [List.length_append, List.length_singleton]; omega)]
          exact nofun
        · rintro ⟨found, latest⟩
          by_contra ne
          have inside := (List.getElem?_eq_some_iff.mp found).1
          rw [List.length_append, List.length_singleton] at inside
          exact latest keys.length (by omega) List.getElem?_concat_length
      · have old : ∀ j : Nat, (keys ++ [last])[j]? = some key ↔ keys[j]? = some key := by
          intro j
          by_cases inside : j < keys.length
          · rw [List.getElem?_append_left inside]
          · have beyond : keys[j]? = none := List.getElem?_eq_none (by omega)
            rw [List.getElem?_append_right (by omega), beyond]
            refine iff_of_false ?_ nofun
            exact fun found => same (List.mem_singleton.mp (List.mem_of_getElem? found))
        rw [AList.lookup_insert_ne same, ih]
        simp only [IsLast, ne_eq, old]

theorem lookup_ofKeys_eq_none_iff : (ofKeys keys).lookup key = none ↔ key ∉ keys := by
  induction keys using List.reverseRecOn with
  | nil => simp [ofKeys]
  | append_singleton keys last ih =>
      rw [ofKeys_concat, List.mem_append, List.mem_singleton, not_or, ← ih]
      by_cases same : key = last
      · subst same
        simp
      · simp [AList.lookup_insert_ne same, same]

theorem IsLast.le (h : IsLast keys key i) (found : keys[j]? = some key) : j ≤ i := by
  by_contra later
  exact h.2 j (by omega) found

/-- A key that is in the list has a last place. -/
theorem exists_isLast (listed : key ∈ keys) : ∃ i, IsLast keys key i := by
  cases found : (ofKeys keys).lookup key with
  | none => exact absurd listed (lookup_ofKeys_eq_none_iff.mp found)
  | some i => exact ⟨i, lookup_ofKeys.mp found⟩

/-- What is last in one list is last in the other one, if the lists agree there and at the
last place of the key in the other one. -/
theorem IsLast.transfer (h : IsLast labels key i) (here : keys[i]? = some key)
    (there : ∀ j, IsLast keys key j → labels[j]? = some key) : IsLast keys key i := by
  obtain ⟨j, last⟩ := exists_isLast (List.mem_of_getElem? here)
  have le : i ≤ j := last.le here
  have ge : j ≤ i := h.le (there j last)
  rwa [Nat.le_antisymm le ge]

/-- Two lists of keys resolve alike exactly if they agree wherever one of them has the last
place of a key. -/
theorem lookup_ofKeys_eq_iff (same : keys.length = labels.length) :
    (∀ key, (ofKeys labels).lookup key = (ofKeys keys).lookup key) ↔
      ∀ i key label, keys[i]? = some key → labels[i]? = some label →
        IsLast keys key i ∨ IsLast labels label i → label = key := by
  constructor
  · rintro agree i key label at_key at_label (last | last)
    · have found := (agree key).trans (lookup_ofKeys.mpr last)
      exact Option.some.inj (at_label.symm.trans (lookup_ofKeys.mp found).1)
    · have found := (agree label).symm.trans (lookup_ofKeys.mpr last)
      exact Option.some.inj ((lookup_ofKeys.mp found).1.symm.trans at_key)
  · intro matching key
    have of_key : ∀ i, IsLast keys key i → labels[i]? = some key := by
      intro i last
      have inside := (List.getElem?_eq_some_iff.mp last.1).1
      have at_label := List.getElem?_eq_getElem (same ▸ inside)
      rw [at_label, matching i _ _ last.1 at_label (.inl last)]
    have of_label : ∀ i, IsLast labels key i → keys[i]? = some key := by
      intro i last
      have inside := (List.getElem?_eq_some_iff.mp last.1).1
      have at_key := List.getElem?_eq_getElem (same.symm ▸ inside)
      rw [at_key, matching i _ _ at_key last.1 (.inr last)]
    refine Option.ext fun i => ?_
    rw [lookup_ofKeys, lookup_ofKeys]
    exact ⟨fun last => last.transfer (of_label i last) of_key,
      fun last => last.transfer (of_key i last) of_label⟩

end AddressMap
end RazorCrypto.Shm
