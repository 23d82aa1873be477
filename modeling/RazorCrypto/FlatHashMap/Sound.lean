import Mathlib.Data.List.Nodup
import RazorCrypto.FlatHashMap.Loops

/-!
# Sound tables

A table is sound if its entries are arranged around the indices of their hashes, its keys
are distinct, it counts its elements and is filled to one half at most. `find` is exact on
sound tables, and each call that returns leaves a sound one. The elements are not affected
by growing: before the elements are moved to a larger array they need not be arranged,
which is what `emplace_new_key` relies on when one element is left over.
-/

namespace RazorCrypto.FlatHashMap

open RobinHood Fallible

variable {K V : Type}

/-- The only failure of a call: the allocator refused a number of entries it was asked for. -/
abbrev OutOfMemory (allocate : Nat → Bool) (failure : Failure) : Prop :=
  ∃ entries, allocate entries = false ∧ failure = .badAlloc entries

theorem Never.outOfMemory {α : Type} {allocate : Nat → Bool} {post : α → Prop}
    {x : Except Failure α} (h : Ends Never post x) : Ends (OutOfMemory allocate) post x := by
  cases x with
  | error e => exact h.elim
  | ok a => exact h

namespace Table

/-- The elements of a table, in the order of its entries. -/
def elements (t : Table K V) : List (K × V) := items t.entries

/-- The keys of a table. -/
def keys (t : Table K V) : List K := t.elements.map Prod.fst

/-- The fields that go with the size of the array: the default table, or a power of two. -/
def Sized (t : Table K V) : Prop :=
  (t.numSlotsMinusOne = 0 ∧ t.shift = 63 ∧ t.maxLookups = 3) ∨
    ∃ b, 1 ≤ b ∧ b ≤ 62 ∧ t.numSlotsMinusOne + 1 = 2 ^ b ∧ t.shift = 64 - b ∧
      t.maxLookups = max 4 b

/-- What moving the elements to another array needs. -/
structure Movable (t : Table K V) : Prop where
  sized : t.Sized
  closed : Closed t.entries
  length : t.entries.length = t.endIt + 1
  distinct : t.keys.Nodup
  count : t.numElements = t.elements.length
  load : 2 * t.numElements ≤ t.numSlotsMinusOne + 1

variable (hash : K → UInt64)

/-- The index of a key. -/
def index (t : Table K V) (key : K) : Nat := indexForHash t.shift (hash key)

/-- The arrangement of the entries of a table from `p` on. -/
abbrev ArrangedFrom (t : Table K V) : Nat → Nat → List (Entry K V) → Prop :=
  Arranged (fun v : K × V => t.index hash v.1) (t.numSlotsMinusOne + 1) t.maxLookups

/-- The invariant of a table. -/
structure Sound (t : Table K V) : Prop where
  sized : t.Sized
  arranged : t.ArrangedFrom hash 0 0 t.entries
  distinct : t.keys.Nodup
  count : t.numElements = t.elements.length
  load : 2 * t.numElements ≤ t.numSlotsMinusOne + 1

section Sized

variable {t : Table K V}

theorem Sized.slots_lt (h : t.Sized) : t.numSlotsMinusOne + 1 < 2 ^ 63 := by
  obtain ⟨slots, -, -⟩ | ⟨b, -, high, slots, -, -⟩ := h
  · omega
  · rw [slots]
    exact Nat.pow_lt_pow_right (by decide) (by omega)

theorem Sized.three_le_maxLookups (h : t.Sized) : 3 ≤ t.maxLookups := by
  obtain ⟨-, -, lookups⟩ | ⟨b, -, -, -, -, lookups⟩ := h <;> omega

/-- An index is inside of the table; only in the default table it may be behind its one slot. -/
theorem Sized.index_le (h : t.Sized) (key : K) : t.index hash key ≤ t.numSlotsMinusOne + 1 := by
  obtain ⟨-, shift, -⟩ | ⟨b, low, high, slots, shift, -⟩ := h
  · have lt : indexForHash 63 (hash key) < 2 ^ 1 := indexForHash_lt (le_refl 1) (by decide) _
    rw [index, shift]
    omega
  · have lt := indexForHash_lt low (by omega) (hash key)
    rw [index, shift]
    omega

theorem Sized.index_lt (h : t.Sized) (full : t.numSlotsMinusOne ≠ 0) (key : K) :
    t.index hash key < t.numSlotsMinusOne + 1 := by
  obtain ⟨none, -, -⟩ | ⟨b, low, high, slots, shift, -⟩ := h
  · exact absurd none full
  · rw [index, shift, slots]
    exact indexForHash_lt low (by omega) (hash key)

end Sized

namespace Sound

variable {hash} {t : Table K V} {key : K} {value : V}

theorem length_entries (h : t.Sound hash) : t.entries.length = t.endIt + 1 := by
  have all := h.arranged.length
  rw [endIt]
  omega

/-- The rest of the array from the index of a key on, and what may take its place. -/
theorem split_index (h : t.Sound hash) (key : K) :
    ∃ front back, t.entries = front ++ back ∧ front.length = t.index hash key ∧
      t.entries.drop (t.index hash key) = back ∧
      ∃ reach, t.ArrangedFrom hash (t.index hash key) reach back ∧
        ∀ back', t.ArrangedFrom hash (t.index hash key) reach back' →
          t.ArrangedFrom hash 0 0 (front ++ back') := by
  have inside := h.sized.index_le hash key
  have lookups := h.sized.three_le_maxLookups
  have length := h.length_entries
  rw [endIt] at length
  have taken : (t.entries.take (t.index hash key)).length = t.index hash key := by
    rw [List.length_take]
    omega
  have left : t.entries.drop (t.index hash key) ≠ [] := by
    rw [ne_eq, List.drop_eq_nil_iff]
    omega
  have whole := h.arranged
  rw [← List.take_append_drop (t.index hash key) t.entries] at whole
  obtain ⟨reach, arranged, replaced⟩ := whole.split left
  rw [taken, Nat.zero_add] at arranged replaced
  exact ⟨_, _, (List.take_append_drop ..).symm, taken, rfl, reach, arranged, replaced⟩

/-- What the search for a key finds in the whole array. -/
inductive Located (hash : K → UInt64) (t : Table K V) (key : K) : Probe → Prop
  | found (front : List (Entry K V)) {distance : Nat} {value : V} {back : List (Entry K V)}
      (split : t.entries = front ++ .filled distance (key, value) :: back) :
      Located hash t key (.found front.length)
  | missing (front : List (Entry K V)) {back : List (Entry K V)} {distance : Nat}
      (split : t.entries = front ++ back)
      (absent : key ∉ t.keys) (short : distance ≤ t.maxLookups)
      (stops : ∀ nearer item, back.head? = some (.filled nearer item) → nearer < distance)
      (home : t.index hash key + distance = front.length)
      (rest : t.ArrangedFrom hash front.length distance back)
      (replaced : ∀ back', t.ArrangedFrom hash front.length distance back' →
        t.ArrangedFrom hash 0 0 (front ++ back')) :
      Located hash t key (.missing front.length distance)

/-- Behind the index of a key there may be entries of other keys only, but before it there is
none of this key. -/
theorem not_mem_front {front back : List (Entry K V)} (h : t.Sound hash)
    (split : t.entries = front ++ back) (before : front.length ≤ t.index hash key) :
    key ∉ (items front).map Prod.fst := by
  rw [List.mem_map]
  rintro ⟨item, listed, rfl⟩
  obtain ⟨distance, filled⟩ := mem_items.mp listed
  obtain ⟨i, inside, found⟩ := List.mem_iff_getElem.mp filled
  have at_i : t.entries[i]? = some (.filled distance item) := by
    rw [split, List.getElem?_append_left inside, List.getElem?_eq_getElem inside, found]
  have place := (h.arranged.place_of_getElem? at_i).1
  omega

theorem movable (h : t.Sound hash) : t.Movable :=
  ⟨h.sized, h.arranged.closed, h.length_entries, h.distinct, h.count, h.load⟩

/-- The last entry is not filled. -/
theorem lt_endIt (h : t.Sound hash) {i distance : Nat} {item : K × V}
    (found : t.entries[i]? = some (.filled distance item)) : i < t.endIt := by
  obtain ⟨body, whole, -⟩ := h.arranged.closed
  have length := h.length_entries
  obtain ⟨inside, -⟩ := List.getElem?_eq_some_iff.mp found
  refine lt_of_le_of_ne (by omega) ?_
  rintro rfl
  rw [whole, List.length_append, List.length_singleton] at length
  rw [whole, List.getElem?_append_right (by omega),
    show t.endIt - body.length = 0 by omega] at found
  cases found

/-- A key has one value. -/
theorem eq_of_mem (h : t.Sound hash) {value' : V} (first : (key, value) ∈ t.elements)
    (second : (key, value') ∈ t.elements) : value = value' :=
  congrArg Prod.snd (List.inj_on_of_nodup_map h.distinct first second rfl)

theorem mem_elements_of_getElem? {i distance : Nat} {item : K × V}
    (found : t.entries[i]? = some (.filled distance item)) : item ∈ t.elements :=
  mem_items.mpr ⟨distance, List.mem_of_getElem? found⟩

theorem deref_eq {i distance : Nat} {item : K × V}
    (found : t.entries[i]? = some (.filled distance item)) : t.deref i = .ok item := by
  rw [deref, found]
  rfl

variable [DecidableEq K]

theorem probe_located (h : t.Sound hash) (key : K) :
    Ends Never (Located hash t key)
      (probe key (t.entries.drop (t.index hash key)) (t.index hash key) 0) := by
  have inside := h.sized.index_le hash key
  have lookups := h.sized.three_le_maxLookups
  obtain ⟨front, back, split, length, dropped, reach, arranged, replaced⟩ := h.split_index key
  rw [dropped]
  refine (probe_searched arranged (Nat.zero_le _) (Nat.zero_le _) rfl (by omega)).mono ?_
  intro probe searched
  cases searched with
  | @found passed nearer value back' split' =>
      rw [← length, ← List.length_append]
      exact .found _ (by rw [split, split', List.append_assoc])
  | @missing passed back' split' absent short stops rest replaced' =>
      rw [Nat.zero_add] at stops
      rw [← length, ← List.length_append, Nat.zero_add] at rest replaced' ⊢
      refine .missing _ (by rw [split, split', List.append_assoc]) ?_ (by omega) stops ?_ rest ?_
      · rw [keys, elements, split, items_append, List.map_append, List.mem_append, not_or]
        exact ⟨h.not_mem_front split length.le, absent⟩
      · rw [List.length_append, length]
      · intro other arranged'
        rw [List.append_assoc]
        exact replaced _ (length ▸ replaced' other arranged')

/-- `find` points to the element of a key, or to the end if there is none. -/
theorem find_eq (h : t.Sound hash) (key : K) :
    Ends Never
      (fun it => (∃ distance value, t.entries[it]? = some (.filled distance (key, value))) ∨
        key ∉ t.keys ∧ it = t.endIt)
      (t.find hash key) := by
  refine (h.probe_located key).bind fun probe located => ?_
  cases located with
  | @found front distance value back split =>
      refine .inl ⟨distance, value, ?_⟩
      rw [split, List.getElem?_append_right (Nat.le_refl _), Nat.sub_self]
      rfl
  | missing _ split absent => exact .inr ⟨absent, rfl⟩

/-- Looking up a key gives its value. -/
theorem lookup_eq (h : t.Sound hash) (key : K) :
    Ends Never (fun answer => ∀ value, answer = some value ↔ (key, value) ∈ t.elements)
      (t.lookup hash key) := by
  refine (h.find_eq key).bind fun it found => ?_
  obtain ⟨distance, value, found⟩ | ⟨absent, rfl⟩ := found
  · rw [if_neg (h.lt_endIt found).ne, deref_eq found]
    intro value'
    change some value = some value' ↔ _
    rw [Option.some.injEq]
    constructor
    · rintro rfl
      exact mem_elements_of_getElem? found
    · exact h.eq_of_mem (mem_elements_of_getElem? found)
  · rw [if_pos rfl]
    intro value
    refine iff_of_false nofun fun listed => absent ?_
    exact List.mem_map_of_mem listed

end Sound
end Table
end RazorCrypto.FlatHashMap
