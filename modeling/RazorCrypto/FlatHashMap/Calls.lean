import RazorCrypto.FlatHashMap.Growth

/-!
# The calls that change a table

Each call takes a sound table to a sound one and has on its elements the effect its name
says: an assignment replaces the value of one key, `erase` takes one element out, `rehash`
with all that rests on it moves the elements without adding or losing any.
-/

namespace RazorCrypto.FlatHashMap

open RobinHood Fallible

variable {K V : Type}

namespace Table

variable {hash : K → UInt64} {allocate : Nat → Bool} {t : Table K V} {key : K} {value : V}

/-! ## A filled entry -/

/-- The array around a filled entry, whose rest may be arranged anew. -/
theorem Sound.split_filled (h : t.Sound hash) {i distance : Nat} {item : K × V}
    (found : t.entries[i]? = some (.filled distance item)) :
    ∃ front back, t.entries = front ++ .filled distance item :: back ∧ front.length = i ∧
      t.index hash item.1 + distance = i ∧ distance < t.maxLookups ∧
      t.ArrangedFrom hash (i + 1) (distance + 1) back ∧
      ∀ back', t.ArrangedFrom hash i distance back' → t.ArrangedFrom hash 0 0 (front ++ back') := by
  obtain ⟨inside, at_i⟩ := List.getElem?_eq_some_iff.mp found
  have taken : (t.entries.take i).length = i := by
    rw [List.length_take]
    omega
  have whole : t.entries = t.entries.take i ++ .filled distance item :: t.entries.drop (i + 1) := by
    rw [← at_i, List.getElem_cons_drop, List.take_append_drop]
  have arranged := h.arranged
  rw [whole] at arranged
  obtain ⟨reach, rest, replaced⟩ := arranged.split (List.cons_ne_nil _ _)
  rw [taken, Nat.zero_add] at rest replaced
  cases rest with
  | filled near short place rest =>
      exact ⟨_, _, whole, taken, place, short, rest,
        fun back' other => replaced back' (other.raise near)⟩

/-- An element with another value in the place of the old one. -/
theorem Sound.setSecond_replaces (h : t.Sound hash) {i distance : Nat} {old : V}
    (found : t.entries[i]? = some (.filled distance (key, old))) (value : V) :
    (t.setSecond i value).Sound hash ∧
      ∃ before after, t.elements = before ++ (key, old) :: after ∧
        (t.setSecond i value).elements = before ++ (key, value) :: after := by
  obtain ⟨front, back, whole, rfl, place, short, rest, replaced⟩ := h.split_filled found
  have changed : (t.setSecond front.length value).entries =
      front ++ .filled distance (key, value) :: back := by
    change t.entries.modify _ _ = _
    rw [whole, List.modify_eq_take_cons_drop (by simp)]
    simp
  have before : t.elements = items front ++ (key, old) :: items back := by
    rw [elements, whole, items_append, items_filled]
  have after : (t.setSecond front.length value).elements =
      items front ++ (key, value) :: items back := by
    rw [elements, changed, items_append, items_filled]
  have keys' : (t.setSecond front.length value).keys = t.keys := by
    rw [keys, keys, after, before]
    simp
  refine ⟨⟨h.sized, ?_, ?_, ?_, h.load⟩, _, _, before, after⟩
  · rw [changed]
    exact replaced _ (.filled (le_refl _) short place rest)
  · rw [keys']
    exact h.distinct
  · rw [after]
    exact h.count.trans (by rw [before]; simp)

/-- The elements after another value was written through an iterator. -/
theorem Sound.mem_setSecond [DecidableEq K] (h : t.Sound hash) {i distance : Nat} {old : V}
    (found : t.entries[i]? = some (.filled distance (key, old))) (value : V) (key' : K)
    (value' : V) :
    (key', value') ∈ (t.setSecond i value).elements ↔
      if key' = key then value' = value else (key', value') ∈ t.elements := by
  obtain ⟨-, before, after, first, second⟩ := h.setSecond_replaces found value
  have distinct := h.distinct
  rw [keys, first, List.map_append, List.map_cons, List.nodup_middle, List.nodup_cons,
    ← List.map_append] at distinct
  have absent : ∀ value', (key, value') ∉ before ++ after :=
    fun value' listed => distinct.1 (List.mem_map.mpr ⟨_, listed, rfl⟩)
  rw [first, second, ← List.perm_middle.symm.mem_iff, ← List.perm_middle.symm.mem_iff,
    List.mem_cons, List.mem_cons, Prod.mk.injEq, Prod.mk.injEq]
  split
  · next same =>
      subst same
      simp [absent]
  · next other => simp [other]

/-- `erase` of an iterator that points to an element. -/
theorem Sound.eraseAt_removes (h : t.Sound hash) {i distance : Nat} {item : K × V}
    (found : t.entries[i]? = some (.filled distance item)) :
    Ends Never
      (fun t' => t'.Sound hash ∧ ∃ before after, t.elements = before ++ item :: after ∧
        t'.elements = before ++ after)
      (t.eraseAt i) := by
  obtain ⟨front, back, whole, rfl, place, short, rest, replaced⟩ := h.split_filled found
  have before : t.elements = items front ++ item :: items back := by
    rw [elements, whole, items_append, items_filled]
  have behind : t.entries.drop (front.length + 1) = back := by
    rw [whole, List.drop_append, List.drop_of_length_le (by omega)]
    simp
  have kept : t.entries.take front.length = front := by
    rw [whole, List.take_left]
  rw [eraseAt, behind, kept]
  refine (moveBack_keeps rest).bind ?_
  rintro row ⟨arranged, same⟩
  have after : items (front ++ row) = items front ++ items back := by
    rw [items_append, same]
  have removed : (items front ++ items back).Sublist t.elements := by
    rw [before]
    exact (List.sublist_cons_self ..).append_left _
  have count : t.numElements = (items front ++ items back).length + 1 := by
    rw [h.count, before]
    simp only [List.length_append, List.length_cons]
    omega
  have load := h.load
  refine ⟨⟨h.sized, replaced _ arranged, ?_, ?_, ?_⟩, _, _, before, after⟩
  · rw [keys, elements, after]
    exact h.distinct.sublist (removed.map Prod.fst)
  · rw [elements, after]
    exact Nat.sub_eq_of_eq_add count
  · dsimp only
    omega

/-! ## Empty tables -/

theorem new_sound : (new : Table K V).Sound hash := by
  refine ⟨.inl ⟨rfl, rfl, rfl⟩, ?_, List.nodup_nil, rfl, Nat.zero_le _⟩
  exact .free (.free (.free (.stop rfl)))

theorem Sound.resetToEmptyState_sound (none : t.numElements = 0) :
    t.resetToEmptyState.Sound hash := by
  refine ⟨.inl ⟨rfl, rfl, rfl⟩, ?_, List.nodup_nil, none, ?_⟩
  · exact .free (.free (.free (.stop rfl)))
  · change 2 * t.numElements ≤ _
    omega

theorem elements_resetToEmptyState : t.resetToEmptyState.elements = [] := rfl

/-- `clear` frees the entries up to the last one. -/
theorem Sound.entries_clear (h : t.Sound hash) :
    t.clear.entries = List.replicate t.endIt .free ++ [.stop] := by
  obtain ⟨body, whole, -⟩ := h.arranged.closed
  have length := h.length_entries
  rw [whole, List.length_append, List.length_singleton] at length
  have size : body.length = t.endIt := by omega
  rw [clear, whole, List.take_left' size, List.drop_left' size, List.map_const', size]

theorem Sound.elements_clear (h : t.Sound hash) : t.clear.elements = [] := by
  rw [elements, h.entries_clear, items_append, items_replicate_free]
  rfl

theorem Sound.clear_sound (h : t.Sound hash) : t.clear.Sound hash := by
  refine ⟨h.sized, ?_, ?_, ?_, Nat.zero_le _⟩
  · rw [h.entries_clear]
    refine .replicate_free _ ?_
    change 0 + t.endIt + 1 = t.numSlotsMinusOne + 1 + t.maxLookups
    rw [endIt]
    omega
  · rw [keys, h.elements_clear]
    exact List.nodup_nil
  · rw [h.elements_clear]
    rfl

/-! ## Assignment and other sizes -/

variable [DecidableEq K]

/-- `rehash` to any number of buckets keeps the elements. -/
theorem Sound.rehash_keeps (h : t.Sound hash) (refuses : Refuses allocate) (numBuckets : Nat) :
    Ends (OutOfMemory allocate) (fun t' => t'.Sound hash ∧ t'.elements.Perm t.elements)
      (t.rehash allocate (Table.emplace hash allocate) numBuckets) := by
  have emplaces : Emplaces hash allocate (Table.emplace (V := V) hash allocate) 1 :=
    fun t value sound _ => sound.emplace_valid refuses value
  by_cases positive : max numBuckets (2 * t.numElements) = 0
  · have none : t.numElements = 0 := by omega
    have empty : t.elements = [] := List.eq_nil_of_length_eq_zero (h.count.symm.trans none)
    rw [rehash, if_pos positive]
    refine ⟨Sound.resetToEmptyState_sound none, ?_⟩
    rw [elements_resetToEmptyState, empty]
  · obtain ⟨b, low, high, size, -⟩ :=
      nextSizeOver_eq (UInt64.ofNat (max numBuckets (2 * t.numElements)))
    by_cases same : 2 ^ b = t.bucketCount
    · have bound : 2 ^ b < 2 ^ 64 := Nat.pow_lt_pow_right (by decide) (by omega)
      have toNat : (UInt64.ofNat (2 ^ b)).toNat = t.bucketCount :=
        (UInt64.toNat_ofNat_of_lt' bound).trans same
      rw [rehash, if_neg positive, size]
      simp only [toNat, if_true]
      exact ⟨h, .refl _⟩
    · have large : 1 ≤ 2 ^ b := Nat.one_le_two_pow
      refine (h.movable.rehash_moves emplaces refuses positive low high size same large).mono ?_
      exact fun t' kept => ⟨kept.1, kept.2.1⟩

theorem Sound.reserve_keeps (h : t.Sound hash) (refuses : Refuses allocate) (n : Nat) :
    Ends (OutOfMemory allocate) (fun t' => t'.Sound hash ∧ t'.elements.Perm t.elements)
      (t.reserve hash allocate n) := by
  rw [reserve]
  split
  · exact h.rehash_keeps refuses _
  · exact ⟨h, .refl _⟩

theorem Sound.shrinkToFit_keeps (h : t.Sound hash) (refuses : Refuses allocate) :
    Ends (OutOfMemory allocate) (fun t' => t'.Sound hash ∧ t'.elements.Perm t.elements)
      (t.shrinkToFit hash allocate) :=
  h.rehash_keeps refuses _

/-- What assigning to a key does: its element has the value, and the others stay. -/
theorem Sound.assign_replaces [Inhabited V] (h : t.Sound hash) (refuses : Refuses allocate)
    (key : K) (value : V) :
    Ends (OutOfMemory allocate)
      (fun t' => t'.Sound hash ∧ ∀ key' value', (key', value') ∈ t'.elements ↔
        if key' = key then value' = value else (key', value') ∈ t.elements)
      (t.assign hash allocate key value) := by
  refine (h.emplace_valid refuses (key, default)).bind fun r valid => ?_
  obtain ⟨sound, points, others⟩ : r.table.Sound hash ∧ r.PointsTo key ∧
      ∀ key' value', key' ≠ key → ((key', value') ∈ r.table.elements ↔
        (key', value') ∈ t.elements) := by
    by_cases listed : key ∈ t.keys
    · obtain ⟨same, points, -⟩ := valid.kept listed
      rw [same]
      exact ⟨h, points, fun _ _ _ => Iff.rfl⟩
    · obtain ⟨sound, -, points, -, elements⟩ := valid.added listed
      refine ⟨sound, points, fun key' value' ne => ?_⟩
      rw [elements.mem_iff, List.mem_cons, Prod.mk.injEq]
      simp [ne]
  obtain ⟨distance, old, found⟩ := points
  refine ⟨(sound.setSecond_replaces found value).1, fun key' value' => ?_⟩
  rw [sound.mem_setSecond found]
  split
  · exact Iff.rfl
  · next other => exact others key' value' other

/-- What erasing a key does. -/
theorem Sound.erase_removes (h : t.Sound hash) (key : K) :
    Ends Never
      (fun answer => answer.1.Sound hash ∧ answer.2 = (if key ∈ t.keys then 1 else 0) ∧
        ∀ key' value', (key', value') ∈ answer.1.elements ↔
          key' ≠ key ∧ (key', value') ∈ t.elements)
      (t.erase hash key) := by
  refine (h.find_eq key).bind fun it found => ?_
  obtain ⟨distance, value, found⟩ | ⟨absent, rfl⟩ := found
  · have listed : key ∈ t.keys := List.mem_map_of_mem (Sound.mem_elements_of_getElem? found)
    rw [if_neg (h.lt_endIt found).ne]
    refine (h.eraseAt_removes found).bind ?_
    rintro t' ⟨sound, before, after, first, second⟩
    refine ⟨sound, (if_pos listed).symm, fun key' value' => ?_⟩
    have distinct := h.distinct
    rw [keys, first, List.map_append, List.map_cons, List.nodup_middle, List.nodup_cons,
      ← List.map_append] at distinct
    rw [second, first, ← List.perm_middle.symm.mem_iff, List.mem_cons, Prod.mk.injEq]
    constructor
    · intro left
      refine ⟨?_, .inr left⟩
      rintro rfl
      exact distinct.1 (List.mem_map.mpr ⟨_, left, rfl⟩)
    · rintro ⟨other, ⟨same, -⟩ | listed⟩
      · exact absurd same other
      · exact listed
  · rw [if_pos rfl]
    refine ⟨h, (if_neg absent).symm, fun key' value' => ?_⟩
    refine ⟨fun listed => ⟨?_, listed⟩, And.right⟩
    rintro rfl
    exact absent (List.mem_map_of_mem listed)

end Table
end RazorCrypto.FlatHashMap
