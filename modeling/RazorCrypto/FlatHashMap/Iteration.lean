import RazorCrypto.FlatHashMap.Calls

/-!
# Iterators

An iterator stands on an entry that is not empty. From such an entry `operator++` finds the
next one, and the last entry stops it. So a loop over a table visits its elements in the order
of their entries, also if it assigns to the values on its way.
-/

namespace RazorCrypto.FlatHashMap

open RobinHood Fallible

variable {K V : Type}

namespace Table

variable {hash : K → UInt64} {t : Table K V} {it : Nat}

/-- An iterator stands on an element or on the last entry. -/
def Stands (t : Table K V) (it : Nat) : Prop := ∃ slot, t.entries[it]? = some slot ∧ slot ≠ .free

/-- From any entry on there is one that is not empty, since the last one is not. -/
theorem skipEmpty_eq {row : List (Entry K V)} (it : Nat) (marked : .stop ∈ row) :
    ∃ skipped slot, skipEmpty row it = .ok (it + skipped) ∧ row[skipped]? = some slot ∧
      slot ≠ .free ∧ items (row.drop skipped) = items row := by
  induction row generalizing it with
  | nil => cases marked
  | cons slot row ih =>
      by_cases free : slot = .free
      · subst free
        have later : Slot.stop ∈ row := by simpa using marked
        obtain ⟨skipped, slot, ends, found, full, same⟩ := ih (it + 1) later
        refine ⟨skipped + 1, slot, ?_, found, full, same⟩
        rw [skipEmpty, if_pos Entry.isEmpty_free, ends, Nat.add_assoc, Nat.add_comm 1]
      · refine ⟨0, slot, ?_, rfl, free, rfl⟩
        cases slot with
        | free => exact absurd rfl free
        | filled distance item => exact if_neg (by simp)
        | stop => exact if_neg (by simp)

namespace Sound

theorem getElem?_eq_stop (h : t.Sound hash) : t.entries[it]? = some .stop ↔ it = t.endIt := by
  obtain ⟨body, whole, unmarked⟩ := h.arranged.closed
  have length := h.length_entries
  rw [whole, List.length_append, List.length_singleton] at length
  rw [whole, List.getElem?_append]
  split
  · next inside =>
      refine iff_of_false (fun found => unmarked (List.mem_of_getElem? found)) ?_
      omega
  · next outside =>
      rw [List.getElem?_singleton]
      constructor
      · intro found
        split at found
        · omega
        · cases found
      · rintro rfl
        rw [if_pos (by omega)]

/-- From a place before the last entry an iterator is found. -/
theorem skipEmpty_drop (h : t.Sound hash) (inside : it ≤ t.endIt) :
    ∃ it', skipEmpty (t.entries.drop it) it = .ok it' ∧ it ≤ it' ∧ t.Stands it' ∧
      items (t.entries.drop it') = items (t.entries.drop it) := by
  have last : t.entries[t.endIt]? = some .stop := h.getElem?_eq_stop.mpr rfl
  have marked : Slot.stop ∈ t.entries.drop it := by
    refine List.mem_of_getElem? (i := t.endIt - it) ?_
    rwa [List.getElem?_drop, Nat.add_sub_cancel' inside]
  obtain ⟨skipped, slot, ends, found, full, same⟩ := skipEmpty_eq it marked
  rw [List.getElem?_drop] at found
  rw [List.drop_drop] at same
  exact ⟨it + skipped, ends, Nat.le_add_right .., ⟨slot, found, full⟩, same⟩

/-- `begin` stands in front of all elements. -/
theorem begin_eq (h : t.Sound hash) :
    ∃ it, t.begin = .ok it ∧ t.Stands it ∧ items (t.entries.drop it) = t.elements := by
  obtain ⟨it, ends, -, stands, same⟩ := h.skipEmpty_drop (Nat.zero_le _)
  exact ⟨it, ends, stands, same⟩

/-- An iterator is at the end, or it points to an element and can be moved on. -/
theorem stands_cases (h : t.Sound hash) (stands : t.Stands it) :
    (it = t.endIt ∧ items (t.entries.drop it) = []) ∨
      ∃ distance item, t.entries[it]? = some (.filled distance item) ∧ it ≠ t.endIt ∧
        items (t.entries.drop it) = item :: items (t.entries.drop (it + 1)) ∧
        ∃ it', t.next it = .ok it' ∧ it < it' ∧ t.Stands it' ∧
          items (t.entries.drop it') = items (t.entries.drop (it + 1)) := by
  obtain ⟨slot, found, full⟩ := stands
  have inside := (List.getElem?_eq_some_iff.mp found).1
  have drop : t.entries.drop it = slot :: t.entries.drop (it + 1) := by
    rw [← (List.getElem?_eq_some_iff.mp found).2, List.drop_eq_getElem_cons inside]
  cases slot with
  | free => exact absurd rfl full
  | stop =>
      have last := h.getElem?_eq_stop.mp found
      have length := h.length_entries
      refine .inl ⟨last, ?_⟩
      rw [drop, List.drop_eq_nil_of_le (by omega)]
      rfl
  | filled distance item =>
      have before := h.lt_endIt found
      refine .inr ⟨distance, item, found, before.ne, by rw [drop, items_filled], ?_⟩
      obtain ⟨it', ends, le, stands, same⟩ := h.skipEmpty_drop (show it + 1 ≤ t.endIt from before)
      exact ⟨it', ends, le, stands, same⟩

/-- A loop from an iterator on visits the elements that are left. -/
theorem visit_eq (h : t.Sound hash) {turns : Nat} (stands : t.Stands it)
    (enough : t.entries.length ≤ it + turns) :
    t.visit turns it = .ok (items (t.entries.drop it)) := by
  induction turns generalizing it with
  | zero =>
      obtain ⟨slot, found, -⟩ := stands
      have inside := (List.getElem?_eq_some_iff.mp found).1
      omega
  | succ turns ih =>
      rw [visit]
      obtain ⟨last, none⟩ |
        ⟨distance, item, found, other, split, it', moved, later, stands', same⟩ :=
          h.stands_cases stands
      · rw [if_pos last, none]
        rfl
      · rw [if_neg other, deref_eq found, moved]
        have rest := ih stands' (by omega)
        change (do
          let rest ← t.visit turns it'
          pure (item :: rest)) = _
        rw [rest, same, split]
        rfl

/-- A loop over the table visits its elements in the order of their entries. -/
theorem visitAll_eq (h : t.Sound hash) : t.visitAll = .ok t.elements := by
  obtain ⟨it, first, stands, all⟩ := h.begin_eq
  rw [visitAll, first, ← all]
  exact h.visit_eq stands (Nat.le_add_left ..)

/-- Assigning through an iterator moves nothing. -/
theorem setSecond_eq {key : K} {old : V} {distance : Nat}
    (found : t.entries[it]? = some (.filled distance (key, old))) (value : V) :
    (t.setSecond it value).entries[it]? = some (.filled distance (key, value)) ∧
      (t.setSecond it value).entries.drop (it + 1) = t.entries.drop (it + 1) := by
  obtain ⟨inside, at_it⟩ := List.getElem?_eq_some_iff.mp found
  have changed : (t.setSecond it value).entries =
      t.entries.take it ++ .filled distance (key, value) :: t.entries.drop (it + 1) := by
    change t.entries.modify _ _ = _
    rw [List.modify_eq_take_cons_drop inside, at_it]
  have taken : (t.entries.take it).length = it := by
    rw [List.length_take]
    omega
  rw [changed]
  refine ⟨?_, ?_⟩
  · rw [List.getElem?_append_right taken.le, taken, Nat.sub_self]
    rfl
  · rw [List.drop_append, List.drop_of_length_le (by omega), taken]
    simp

end Sound
end Table
end RazorCrypto.FlatHashMap
