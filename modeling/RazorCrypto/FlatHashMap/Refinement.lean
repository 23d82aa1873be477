import Mathlib.Data.List.AList
import RazorCrypto.FlatHashMap.Calls

/-!
# A table is a finite map

However its elements are laid out, a table answers like the finite map of its elements, over
every sequence of calls: growing, displaced elements and closed gaps cannot be seen from outside.
The only other end of a call is `std::bad_alloc`.
-/

namespace RazorCrypto.FlatHashMap

open RobinHood Fallible

variable {K V : Type}

/-- The calls on a table. -/
inductive Op (K V : Type)
  | emplace (key : K) (value : V)
  | assign (key : K) (value : V)
  | lookup (key : K)
  | count (key : K)
  | erase (key : K)
  | clear
  | size
  | rehash (numBuckets : Nat)
  | reserve (numElements : Nat)
  | shrinkToFit

/-- What a call answers: nothing, whether an element is new with the value it has now, a value
that was looked up, or a number. -/
inductive Answer (V : Type)
  | done
  | emplaced (inserted : Bool) (value : V)
  | value (value : Option V)
  | number (n : Nat)

/-! ## Calls of a table -/

section Calls

variable [DecidableEq K] [Inhabited V] (hash : K → UInt64) (allocate : Nat → Bool)

/-- One call. The value of an emplaced element is read through the iterator. -/
def Table.call (t : Table K V) : Op K V → Except Failure (Table K V × Answer V)
  | .emplace key value => do
      let r ← t.emplace hash allocate (key, value)
      let element ← r.table.deref r.it
      pure (r.table, .emplaced r.inserted element.2)
  | .assign key value => do
      let t ← t.assign hash allocate key value
      pure (t, .done)
  | .lookup key => do
      let value ← t.lookup hash key
      pure (t, .value value)
  | .count key => do
      let n ← t.count hash key
      pure (t, .number n)
  | .erase key => do
      let erased ← t.erase hash key
      pure (erased.1, .number erased.2)
  | .clear => pure (t.clear, .done)
  | .size => pure (t, .number t.size)
  | .rehash numBuckets => do
      let t ← t.rehash allocate (Table.emplace hash allocate) numBuckets
      pure (t, .done)
  | .reserve numElements => do
      let t ← t.reserve hash allocate numElements
      pure (t, .done)
  | .shrinkToFit => do
      let t ← t.shrinkToFit hash allocate
      pure (t, .done)

/-- A sequence of calls and their answers. -/
def Table.run (t : Table K V) : List (Op K V) → Except Failure (Table K V × List (Answer V))
  | [] => pure (t, [])
  | op :: ops => do
      let first ← t.call hash allocate op
      let rest ← Table.run first.1 ops
      pure (rest.1, first.2 :: rest.2)

end Calls

/-! ## The finite map -/

section FiniteMap

variable [DecidableEq K]

/-- A call on the finite map: keys keep their first value until it is assigned or erased. -/
def Op.apply (m : AList fun _ : K => V) : Op K V → AList fun _ : K => V
  | .emplace key value => if (m.lookup key).isSome then m else m.insert key value
  | .assign key value => m.insert key value
  | .erase key => m.erase key
  | .clear => ∅
  | _ => m

/-- What the finite map answers. -/
def Op.answer (m : AList fun _ : K => V) : Op K V → Answer V
  | .emplace key value => .emplaced (m.lookup key).isNone ((m.lookup key).getD value)
  | .lookup key => .value (m.lookup key)
  | .count key | .erase key => .number (if (m.lookup key).isSome then 1 else 0)
  | .size => .number m.entries.length
  | _ => .done

/-- The finite map after a sequence of calls. -/
def applyAll (m : AList fun _ : K => V) (ops : List (Op K V)) : AList fun _ : K => V :=
  ops.foldl Op.apply m

/-- What it answers to them. -/
def answers (m : AList fun _ : K => V) : List (Op K V) → List (Answer V)
  | [] => []
  | op :: ops => op.answer m :: answers (op.apply m) ops

end FiniteMap

/-- A table with the elements of a finite map. -/
structure Table.Represents (hash : K → UInt64) (m : AList fun _ : K => V) [DecidableEq K]
    (t : Table K V) : Prop where
  sound : t.Sound hash
  mem : ∀ key value, (key, value) ∈ t.elements ↔ m.lookup key = some value

namespace Table.Represents

variable {hash : K → UInt64} {allocate : Nat → Bool} [DecidableEq K]
variable {m : AList fun _ : K => V} {t : Table K V} {key : K} {value : V}

theorem new (hash : K → UInt64) : (Table.new : Table K V).Represents hash ∅ :=
  ⟨new_sound, fun _ _ => iff_of_false List.not_mem_nil nofun⟩

theorem mem_keys (h : t.Represents hash m) : key ∈ t.keys ↔ (m.lookup key).isSome := by
  rw [Table.keys, List.mem_map, Option.isSome_iff_exists]
  constructor
  · rintro ⟨⟨_, value⟩, listed, rfl⟩
    exact ⟨value, (h.mem _ value).mp listed⟩
  · rintro ⟨value, found⟩
    exact ⟨_, (h.mem key value).mpr found, rfl⟩

/-- The same elements in another order or another array. -/
theorem of_perm (h : t.Represents hash m) {t' : Table K V} (sound : t'.Sound hash)
    (same : t'.elements.Perm t.elements) : t'.Represents hash m :=
  ⟨sound, fun key value => same.mem_iff.trans (h.mem key value)⟩

/-- Both have the same entries, so that a table counts those of the map. -/
theorem elements_perm (h : t.Represents hash m) :
    t.elements.Perm (m.entries.map fun entry => (entry.1, entry.2)) := by
  have distinct : m.entries.Nodup := m.nodupKeys.nodup
  have apart : Function.Injective fun entry : (_ : K) × V => (entry.1, entry.2) := by
    rintro ⟨key, value⟩ ⟨key', value'⟩ same
    cases same
    rfl
  rw [List.perm_ext_iff_of_nodup (List.Nodup.of_map Prod.fst h.sound.distinct) (distinct.map apart)]
  rintro ⟨key, value⟩
  rw [h.mem, List.mem_map]
  constructor
  · intro found
    exact ⟨⟨key, value⟩, AList.mem_lookup_iff.mp found, rfl⟩
  · rintro ⟨⟨_, _⟩, listed, same⟩
    cases same
    exact AList.mem_lookup_iff.mpr listed

theorem size_eq (h : t.Represents hash m) : t.size = m.entries.length := by
  rw [size, h.sound.count, h.elements_perm.length_eq, List.length_map]

/-! ## One call -/

/-- An element that was added, or one with this key that was there before. -/
theorem emplace (h : t.Represents hash m) {r : Emplaced K V}
    (valid : r.Valid hash t (key, value)) :
    r.table.Represents hash ((Op.emplace key value).apply m) ∧
      r.inserted = (m.lookup key).isNone ∧
      r.table.deref r.it = .ok (key, (m.lookup key).getD value) := by
  rw [Op.apply]
  cases present : m.lookup key with
  | some old =>
      obtain ⟨same, ⟨distance, value', points⟩, inserted⟩ :=
        valid.kept (h.mem_keys.mpr (by rw [present]; rfl))
      have one : value' = old := by
        have listed := (h.mem key value').mp (same ▸ Sound.mem_elements_of_getElem? points)
        exact Option.some.inj (listed.symm.trans present)
      subst one
      exact ⟨same ▸ h, inserted, Sound.deref_eq points⟩
  | none =>
      have absent : key ∉ t.keys := fun listed => by
        rw [h.mem_keys, present] at listed
        cases listed
      obtain ⟨sound, -, ⟨distance, value', points⟩, inserted, elements⟩ := valid.added absent
      have one : value' = value :=
        sound.eq_of_mem (Sound.mem_elements_of_getElem? points)
          (elements.mem_iff.mpr (List.mem_cons_self ..))
      subst one
      refine ⟨⟨sound, fun key' value => ?_⟩, inserted, Sound.deref_eq points⟩
      rw [elements.mem_iff, List.mem_cons, h.mem, Prod.mk.injEq]
      by_cases same : key' = key
      · subst same
        simp [present, eq_comm]
      · simp [same, AList.lookup_insert_ne same]

theorem assign {t' : Table K V} (sound : t'.Sound hash) (h : t.Represents hash m)
    (replaced : ∀ key' value', (key', value') ∈ t'.elements ↔
      if key' = key then value' = value else (key', value') ∈ t.elements) :
    t'.Represents hash (m.insert key value) := by
  refine ⟨sound, fun key' value' => ?_⟩
  rw [replaced, h.mem]
  split
  · next same =>
      subst same
      rw [AList.lookup_insert, Option.some.injEq, eq_comm]
  · next other => rw [AList.lookup_insert_ne other]

theorem erase {t' : Table K V} (sound : t'.Sound hash) (h : t.Represents hash m)
    (removed : ∀ key' value', (key', value') ∈ t'.elements ↔
      key' ≠ key ∧ (key', value') ∈ t.elements) :
    t'.Represents hash (m.erase key) := by
  refine ⟨sound, fun key' value' => ?_⟩
  rw [removed, h.mem]
  by_cases same : key' = key
  · subst same
    simp [AList.lookup_erase]
  · simp [same, AList.lookup_erase_ne same]

theorem lookup_eq (h : t.Represents hash m) (key : K) :
    Ends Never (· = m.lookup key) (t.lookup hash key) := by
  refine (h.sound.lookup_eq key).mono fun answer found => ?_
  refine Option.ext fun value => ?_
  rw [found, h.mem]

theorem count_eq (h : t.Represents hash m) (key : K) :
    Ends Never (· = if (m.lookup key).isSome then 1 else 0) (t.count hash key) := by
  refine (h.sound.find_eq key).bind fun it found => ?_
  rw [ends_pure]
  obtain ⟨distance, value, found⟩ | ⟨absent, rfl⟩ := found
  · have listed := (h.mem key value).mp (Sound.mem_elements_of_getElem? found)
    rw [if_neg (h.sound.lt_endIt found).ne, listed]
    rfl
  · rw [if_pos rfl, if_neg fun present => absent (h.mem_keys.mpr present)]

variable [Inhabited V]

/-- One call of a table answers like the finite map and leaves the elements it has then. -/
theorem call_refines (h : t.Represents hash m) (refuses : Refuses allocate) (op : Op K V) :
    Ends (OutOfMemory allocate)
      (fun r => r.1.Represents hash (op.apply m) ∧ r.2 = op.answer m)
      (t.call hash allocate op) := by
  cases op with
  | emplace key value =>
      refine (h.sound.emplace_valid refuses (key, value)).bind fun r valid => ?_
      obtain ⟨represents, inserted, element⟩ := h.emplace valid
      rw [element, inserted]
      exact ⟨represents, rfl⟩
  | assign key value =>
      refine (h.sound.assign_replaces refuses key value).bind ?_
      rintro t' ⟨sound, replaced⟩
      exact ⟨assign sound h replaced, rfl⟩
  | lookup key =>
      refine (Never.outOfMemory (h.lookup_eq key)).bind ?_
      rintro _ rfl
      exact ⟨h, rfl⟩
  | count key =>
      refine (Never.outOfMemory (h.count_eq key)).bind ?_
      rintro _ rfl
      exact ⟨h, rfl⟩
  | erase key =>
      refine (Never.outOfMemory (h.sound.erase_removes key)).bind ?_
      rintro ⟨t', n⟩ ⟨sound, number, removed⟩
      dsimp only at number
      refine ⟨erase sound h removed, ?_⟩
      rw [number, Op.answer]
      exact congrArg Answer.number (if_congr h.mem_keys rfl rfl)
  | clear =>
      refine ⟨⟨h.sound.clear_sound, fun key value => ?_⟩, rfl⟩
      rw [h.sound.elements_clear]
      exact iff_of_false List.not_mem_nil nofun
  | size => exact ⟨h, congrArg Answer.number h.size_eq⟩
  | rehash numBuckets =>
      refine (h.sound.rehash_keeps refuses numBuckets).bind ?_
      rintro t' ⟨sound, same⟩
      exact ⟨h.of_perm sound same, rfl⟩
  | reserve numElements =>
      refine (h.sound.reserve_keeps refuses numElements).bind ?_
      rintro t' ⟨sound, same⟩
      exact ⟨h.of_perm sound same, rfl⟩
  | shrinkToFit =>
      refine (h.sound.shrinkToFit_keeps refuses).bind ?_
      rintro t' ⟨sound, same⟩
      exact ⟨h.of_perm sound same, rfl⟩

/-- Every sequence of calls. -/
theorem run_refines (h : t.Represents hash m) (refuses : Refuses allocate) (ops : List (Op K V)) :
    Ends (OutOfMemory allocate)
      (fun r => r.1.Represents hash (applyAll m ops) ∧ r.2 = answers m ops)
      (t.run hash allocate ops) := by
  induction ops generalizing t m with
  | nil => exact ⟨h, rfl⟩
  | cons op ops ih =>
      refine (h.call_refines refuses op).bind ?_
      rintro ⟨t', answer⟩ ⟨represents, rfl⟩
      refine (ih represents).bind ?_
      rintro ⟨t'', rest⟩ ⟨represents', rfl⟩
      exact ⟨represents', rfl⟩

end Table.Represents

end RazorCrypto.FlatHashMap
