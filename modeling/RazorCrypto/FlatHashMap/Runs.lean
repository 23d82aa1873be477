import RazorCrypto.FlatHashMap.Iteration
import RazorCrypto.FlatHashMap.Refinement

/-!
# Runs of a table

What holds of a table after any sequence of calls on a new one: it answered like a finite map,
a loop over it visits each element once, and no search is longer than the logarithm of the
number of its buckets.
-/

namespace RazorCrypto.FlatHashMap

open RobinHood Fallible

variable {K V : Type} [DecidableEq K] [Inhabited V]
variable {hash : K → UInt64} {allocate : Nat → Bool} {ops : List (Op K V)}

/-- A run that returns represents the finite map of its calls. -/
theorem represents_of_run (refuses : Refuses allocate) {t : Table K V} {given : List (Answer V)}
    (returned : Table.run hash allocate .new ops = .ok (t, given)) :
    t.Represents hash (applyAll ∅ ops) ∧ given = answers ∅ ops := by
  have refined := (Table.Represents.new hash).run_refines refuses ops
  rw [returned] at refined
  exact refined

/-- A sequence of calls on a new table ends with the answers of a finite map, or with the failure
of a request for memory that the allocator refuses. No call reads outside of the array or from an
empty entry, and none of them grows the table forever. -/
theorem run_answers (hash : K → UInt64) (refuses : Refuses allocate) (ops : List (Op K V)) :
    (∃ t, Table.run hash allocate .new ops = .ok (t, answers ∅ ops)) ∨
      ∃ entries, allocate entries = false ∧
        Table.run hash allocate .new ops = .error (.badAlloc entries) := by
  have refined := (Table.Represents.new hash).run_refines refuses ops
  cases returned : Table.run hash allocate .new ops with
  | ok r =>
      rw [returned] at refined
      obtain ⟨t, given⟩ := r
      exact .inl ⟨t, by rw [← refined.2]⟩
  | error failure =>
      rw [returned] at refined
      obtain ⟨entries, refused, rfl⟩ := refined
      exact .inr ⟨entries, refused, rfl⟩

/-- Room for a hundred entries. -/
def hundred (n : Nat) : Bool := n < 100

theorem hundred_refuses : Refuses hundred := by
  intro n large
  exact decide_eq_false (by omega)

/-- Six keys with the same hash, so that the table grows more than its load asks for. -/
def collisions : List (Op Nat Nat) :=
  [.emplace 0 10, .emplace 1 11, .emplace 2 12, .emplace 3 13, .emplace 4 14, .emplace 5 15,
    .assign 2 22, .erase 1, .emplace 2 0, .lookup 1, .lookup 2, .size]

/-- There is room for each table of these calls. -/
theorem collisions_returns : Returns (Table.run (fun _ => 7) hundred .new collisions) :=
  ⟨_, rfl⟩

theorem run_answers_collisions :
    ∃ t, Table.run (fun _ => 7) hundred .new collisions =
      .ok (t, [.emplaced true 10, .emplaced true 11, .emplaced true 12, .emplaced true 13,
        .emplaced true 14, .emplaced true 15, .done, .number 1, .emplaced false 22, .value none,
        .value (some 22), .number 5]) := by
  obtain answered | ⟨entries, -, failed⟩ :=
    run_answers (fun _ => 7) hundred_refuses collisions
  · exact answered
  · obtain ⟨r, returned⟩ := collisions_returns
    cases failed.symm.trans returned

/-- After every run, a loop over the table visits the elements of the finite map, each of them
once. -/
theorem run_visits (refuses : Refuses allocate) {t : Table K V} {given : List (Answer V)}
    (returned : Table.run hash allocate .new ops = .ok (t, given)) :
    ∃ visited, t.visitAll = .ok visited ∧ (visited.map Prod.fst).Nodup ∧
      visited.Perm ((applyAll ∅ ops).entries.map fun entry => (entry.1, entry.2)) := by
  obtain ⟨represents, -⟩ := represents_of_run refuses returned
  exact ⟨t.elements, represents.sound.visitAll_eq, represents.sound.distinct,
    represents.elements_perm⟩

/-! ## Short searches -/

omit [Inhabited V] in
/-- The number of entries behind its index that a search for a key looks at, before it stops. -/
theorem Table.Sound.probe_short {t : Table K V} (h : t.Sound hash) (key : K) :
    Ends Never
      (fun probe => ∃ passed, passed ≤ t.maxLookups ∧
        (probe = .found (t.index hash key + passed) ∨
          probe = .missing (t.index hash key + passed) passed))
      (Table.probe key (t.entries.drop (t.index hash key)) (t.index hash key) 0) := by
  refine (h.probe_located key).mono fun probe located => ?_
  cases located with
  | @found front distance value back split =>
      have at_front : t.entries[front.length]? = some (.filled distance (key, value)) := by
        rw [split]
        exact Table.getElem?_front
      obtain ⟨place, short⟩ := h.arranged.place_of_getElem? at_front
      rw [Nat.zero_add] at place
      exact ⟨distance, short.le, .inl (by rw [← place])⟩
  | @missing front back distance split absent short stops home =>
      exact ⟨distance, short, .inr (by rw [home])⟩

omit [DecidableEq K] [Inhabited V] in
theorem Table.Sized.maxLookups_le {t : Table K V} (h : t.Sized) :
    t.maxLookups ≤ max 4 (t.numSlotsMinusOne + 1).log2 := by
  obtain ⟨-, -, lookups⟩ | ⟨b, -, -, slots, -, lookups⟩ := h
  · omega
  · rw [slots, Nat.log2_two_pow]
    omega

/-- After every run the table is filled to one half at most, and a search for any key passes over
no more entries than the larger of 4 and the binary logarithm of the number of buckets. -/
theorem run_searches (refuses : Refuses allocate) {t : Table K V} {given : List (Answer V)}
    (returned : Table.run hash allocate .new ops = .ok (t, given)) :
    2 * t.size ≤ t.numSlotsMinusOne + 1 ∧
      ∀ key, ∃ probe passed,
        Table.probe key (t.entries.drop (t.index hash key)) (t.index hash key) 0 = .ok probe ∧
          passed ≤ max 4 (t.numSlotsMinusOne + 1).log2 ∧
          (probe = .found (t.index hash key + passed) ∨
            probe = .missing (t.index hash key + passed) passed) := by
  obtain ⟨represents, -⟩ := represents_of_run refuses returned
  refine ⟨represents.sound.load, fun key => ?_⟩
  have short := represents.sound.probe_short key
  have lookups := represents.sound.sized.maxLookups_le
  cases found : Table.probe key (t.entries.drop (t.index hash key)) (t.index hash key) 0 with
  | error failure =>
      rw [found] at short
      exact short.elim
  | ok probe =>
      rw [found] at short
      obtain ⟨passed, le, stopped⟩ := short
      exact ⟨probe, passed, rfl, le.trans lookups, stopped⟩

/-- Two elements and what is left of them. -/
def twoElements : List (Op Nat Nat) := [.emplace 0 10, .emplace 1 11]

/-- The table after them, with room for four indices. -/
def twoTable : Table Nat Nat :=
  ⟨[.free, .filled 0 (0, 10), .filled 1 (1, 11), .free, .free, .free, .free, .stop], 3, 62, 4, 2⟩

theorem twoElements_run :
    Table.run (fun _ => 7) hundred .new twoElements =
      .ok (twoTable, [.emplaced true 10, .emplaced true 11]) := rfl

theorem run_visits_twoElements :
    ∃ visited, twoTable.visitAll = .ok visited ∧ (visited.map Prod.fst).Nodup ∧
      visited.Perm ((applyAll ∅ twoElements).entries.map fun entry => (entry.1, entry.2)) :=
  run_visits hundred_refuses twoElements_run

theorem run_searches_twoElements :
    2 * twoTable.size ≤ twoTable.numSlotsMinusOne + 1 ∧
      ∀ key, ∃ probe passed,
        Table.probe key (twoTable.entries.drop (twoTable.index (fun _ => 7) key))
            (twoTable.index (fun _ => 7) key) 0 = .ok probe ∧
          passed ≤ max 4 (twoTable.numSlotsMinusOne + 1).log2 ∧
          (probe = .found (twoTable.index (fun _ => 7) key + passed) ∨
            probe = .missing (twoTable.index (fun _ => 7) key + passed) passed) :=
  run_searches hundred_refuses twoElements_run

end RazorCrypto.FlatHashMap
