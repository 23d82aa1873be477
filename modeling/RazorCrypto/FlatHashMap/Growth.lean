import RazorCrypto.FlatHashMap.Sound

/-!
# Emplacing and growing

`emplace` and `rehash` call each other: an element without a place makes the table grow, and
the elements are emplaced in the larger array one after the other, where each of them may make
it grow again. Since no array of `2 ^ 63` entries can be had and each growth doubles the
size, the calls in each other end. A call that ends without running out of memory
leaves a sound table with one element more, if its key is new.
-/

namespace RazorCrypto.FlatHashMap

open RobinHood Fallible

variable {K V : Type}

/-- What every allocator does: half the range of a size is too much. -/
def Refuses (allocate : Nat → Bool) : Prop := ∀ n, 2 ^ 63 ≤ n → allocate n = false

section Results

variable (hash : K → UInt64) (allocate : Nat → Bool)
variable (t : Table K V) (value : K × V) (r : Emplaced K V)

/-- The iterator that was returned points to an element with the key. -/
def Emplaced.PointsTo (key : K) : Prop :=
  ∃ distance value, r.table.entries[r.it]? = some (.filled distance (key, value))

/-- A new element was emplaced. -/
structure Emplaced.Added : Prop where
  sound : r.table.Sound hash
  larger : t.numSlotsMinusOne ≤ r.table.numSlotsMinusOne
  points : r.PointsTo value.1
  inserted : r.inserted = true
  elements : r.table.elements.Perm (value :: t.elements)

/-- The key had an element, and everything was left as it was. -/
structure Emplaced.Kept : Prop where
  same : r.table = t
  points : r.PointsTo value.1
  inserted : r.inserted = false

/-- What `emplace` does. -/
structure Emplaced.Valid : Prop where
  kept : value.1 ∈ t.keys → r.Kept t value
  added : value.1 ∉ t.keys → r.Added hash t value

/-- A function that emplaces values in sound tables from some size on. -/
def Emplaces (emplace : Table K V → K × V → Except Failure (Emplaced K V)) (least : Nat) : Prop :=
  ∀ (t : Table K V) (value : K × V), t.Sound hash → least ≤ t.numSlotsMinusOne + 1 →
    Ends (OutOfMemory allocate) (Emplaced.Valid hash t value) (emplace t value)

end Results

namespace Table

variable {hash : K → UInt64} {allocate : Nat → Bool} {t : Table K V} {value : K × V}
variable {emplace : Table K V → K × V → Except Failure (Emplaced K V)}

/-! ## Moving the elements -/

/-- A table of free entries. -/
theorem fresh_sound {b : Nat} (low : 1 ≤ b) (high : b ≤ 62) :
    Sound hash
      { entries := List.replicate (2 ^ b + max 4 b - 1) (.free : Entry K V) ++ [.stop]
        numSlotsMinusOne := 2 ^ b - 1
        shift := 64 - b
        maxLookups := max 4 b
        numElements := 0 } := by
  have pos : 0 < 2 ^ b := Nat.two_pow_pos b
  have none : items (List.replicate (2 ^ b + max 4 b - 1) (.free : Entry K V) ++ [.stop]) = [] := by
    simp
  refine ⟨.inr ⟨b, low, high, ?_, rfl, rfl⟩, .replicate_free _ ?_, ?_, ?_, ?_⟩
  · exact Nat.sub_add_cancel pos
  · dsimp only
    omega
  · rw [keys, elements, none]
    exact List.nodup_nil
  · rw [elements, none]
    rfl
  · exact Nat.zero_le _

/-- One turn of the loop of `rehash`, with the elements that were moved before. -/
theorem moveEntry_keeps {least : Nat} (emplaces : Emplaces hash allocate emplace least)
    {body done rest : List (Entry K V)} {entry : Entry K V}
    (distinct : ((items body).map Prod.fst).Nodup) (unmarked : .stop ∉ body)
    (split : body = done ++ entry :: rest) (sound : t.Sound hash)
    (moved : t.elements.Perm (items done)) (large : least ≤ t.numSlotsMinusOne + 1) :
    Ends (OutOfMemory allocate)
      (fun t' => t'.Sound hash ∧ t'.elements.Perm (items (done ++ [entry])) ∧
        least ≤ t'.numSlotsMinusOne + 1)
      (moveEntry emplace t entry) := by
  rw [items_append]
  cases entry with
  | free =>
      refine ⟨sound, ?_, large⟩
      simpa using moved
  | stop => simp [split] at unmarked
  | filled distance value =>
      have new : value.1 ∉ t.keys := by
        rw [split, items_append, items_filled, List.map_append, List.nodup_append'] at distinct
        intro listed
        have before : value.1 ∈ (items done).map Prod.fst := (moved.map Prod.fst).mem_iff.mp listed
        exact distinct.2.2 before (List.mem_cons_self ..)
      refine (emplaces t value sound large).bind fun r valid => ?_
      obtain ⟨sound', larger, -, -, elements⟩ := valid.added new
      refine ⟨sound', ?_, by omega⟩
      exact (elements.trans (moved.cons value)).trans (List.perm_append_singleton ..).symm

/-- Moving the elements to an array of another size. -/
theorem Movable.rehash_moves (h : t.Movable) {least b numBuckets : Nat}
    (emplaces : Emplaces hash allocate emplace least) (refuses : Refuses allocate)
    (positive : max numBuckets (2 * t.numElements) ≠ 0) (low : 1 ≤ b) (high : b ≤ 63)
    (size : nextSizeOver (UInt64.ofNat (max numBuckets (2 * t.numElements))) =
      (64 - b, UInt64.ofNat (2 ^ b)))
    (other : 2 ^ b ≠ t.bucketCount) (large : least ≤ 2 ^ b) :
    Ends (OutOfMemory allocate)
      (fun t' => t'.Sound hash ∧ t'.elements.Perm t.elements ∧ least ≤ t'.numSlotsMinusOne + 1)
      (t.rehash allocate emplace numBuckets) := by
  have bound : 2 ^ b < 2 ^ 64 := Nat.pow_lt_pow_right (by decide) (by omega)
  have toNat : (UInt64.ofNat (2 ^ b)).toNat = 2 ^ b := UInt64.toNat_ofNat_of_lt' bound
  have lookups : computeMaxLookups (UInt64.ofNat (2 ^ b)) = max 4 b := by
    rw [computeMaxLookups, log2_two_pow (by omega)]
    rfl
  obtain ⟨body, whole, unmarked⟩ := h.closed
  have length := h.length
  rw [whole, List.length_append, List.length_singleton] at length
  have taken : t.entries.take t.endIt = body := by
    rw [whole, List.take_left' (by omega)]
  have moved : items body = t.elements := by
    rw [elements, whole, items_append]
    simp
  rw [rehash, if_neg positive, size]
  simp only [toNat, lookups]
  rw [if_neg other]
  split
  · next granted =>
      have small : 2 ^ b + max 4 b < 2 ^ 63 := by
        by_contra large
        rw [refuses _ (by omega)] at granted
        cases granted
      have high' : b ≤ 62 := by
        by_contra larger
        have : b = 63 := by omega
        subst this
        omega
      rw [taken]
      refine (Ends.foldlM (I := fun done t' => t'.Sound hash ∧ t'.elements.Perm (items done) ∧
        least ≤ t'.numSlotsMinusOne + 1) ?_ ?_).mono ?_
      · refine ⟨fresh_sound low high', ?_, ?_⟩
        · simp [elements]
        · dsimp only
          omega
      · rintro done entry rest t' split ⟨sound, moved', large'⟩
        refine moveEntry_keeps emplaces ?_ unmarked split sound moved' large'
        rw [moved]
        exact h.distinct
      · rintro t' ⟨sound, moved', large'⟩
        rw [moved] at moved'
        exact ⟨sound, moved', large'⟩
  · next refused => exact ⟨_, Bool.eq_false_iff.mpr refused, rfl⟩

/-- `grow` doubles the size at least. -/
theorem Movable.grow_doubles (h : t.Movable)
    (emplaces : Emplaces hash allocate emplace (2 * (t.numSlotsMinusOne + 1)))
    (refuses : Refuses allocate) :
    Ends (OutOfMemory allocate)
      (fun t' => t'.Sound hash ∧ t'.elements.Perm t.elements ∧
        2 * (t.numSlotsMinusOne + 1) ≤ t'.numSlotsMinusOne + 1)
      (t.grow allocate emplace) := by
  have load := h.load
  obtain ⟨b, low, high, buckets, other, large⟩ : ∃ b, 1 ≤ b ∧ b ≤ 63 ∧
      max (max 4 (2 * t.bucketCount)) (2 * t.numElements) = 2 ^ b ∧ 2 ^ b ≠ t.bucketCount ∧
      2 * (t.numSlotsMinusOne + 1) ≤ 2 ^ b := by
    obtain ⟨none, -, -⟩ | ⟨b, low, high, slots, -, -⟩ := h.sized
    · have empty : t.bucketCount = 0 := if_pos none
      rw [empty]
      exact ⟨2, by decide, by decide, by omega, by decide, by omega⟩
    · have two : 2 ^ 1 ≤ 2 ^ b := Nat.pow_le_pow_right (by decide) low
      have double : 2 ^ (b + 1) = 2 ^ b * 2 := Nat.pow_succ ..
      have full : t.bucketCount = t.numSlotsMinusOne + 1 := if_neg (by omega)
      rw [full]
      exact ⟨b + 1, by omega, by omega, by omega, by omega, by omega⟩
  have positive : 0 < 2 ^ b := Nat.two_pow_pos b
  refine h.rehash_moves emplaces refuses (by omega) low high ?_ other large
  rw [buckets, nextSizeOver_two_pow low high]

/-- Growing, and emplacing a new element in the larger table. -/
theorem Movable.grow_emplaces (h : t.Movable)
    (emplaces : Emplaces hash allocate emplace (2 * (t.numSlotsMinusOne + 1)))
    (refuses : Refuses allocate) (new : value.1 ∉ t.keys) :
    Ends (OutOfMemory allocate) (Emplaced.Added hash t value)
      (do
        let grown ← t.grow allocate emplace
        emplace grown value) := by
  refine (h.grow_doubles emplaces refuses).bind fun grown ⟨sound, same, large⟩ => ?_
  refine (emplaces grown value sound large).mono fun r valid => ?_
  have absent : value.1 ∉ grown.keys := fun listed => new ((same.map Prod.fst).mem_iff.mp listed)
  obtain ⟨sound', larger, points, inserted, elements⟩ := valid.added absent
  exact ⟨sound', by omega, points, inserted, elements.trans (same.cons value)⟩

/-! ## Emplacing a new key -/

/-- Other arranged entries with one element more, and room for it. -/
theorem Sound.added (h : t.Sound hash) {entries : List (Entry K V)} {it distance : Nat}
    (arranged : t.ArrangedFrom hash 0 0 entries) (same : (items entries).Perm (value :: t.elements))
    (new : value.1 ∉ t.keys) (room : 2 * (t.numElements + 1) ≤ t.numSlotsMinusOne + 1)
    (points : entries[it]? = some (.filled distance value)) :
    Emplaced.Added hash t value
      ⟨{ t with entries := entries, numElements := t.numElements + 1 }, it, true⟩ := by
  refine ⟨⟨h.sized, arranged, ?_, ?_, room⟩, le_refl _, ⟨distance, value.2, points⟩, rfl, same⟩
  · exact (same.map Prod.fst).nodup_iff.mpr (List.nodup_cons.mpr ⟨new, h.distinct⟩)
  · change t.numElements + 1 = _
    rw [h.count]
    exact same.length_eq.symm

/-- Another element where one was left over: the elements may be moved. -/
theorem Sound.movable_of_perm (h : t.Sound hash) {entries : List (Entry K V)}
    (closed : Closed entries) (length : entries.length = t.endIt + 1)
    (same : (items entries).Perm t.elements) :
    Movable { t with entries := entries } := by
  refine ⟨h.sized, closed, length, ?_, ?_, h.load⟩
  · exact (same.map Prod.fst).nodup_iff.mpr h.distinct
  · exact h.count.trans same.length_eq.symm

variable {again : Table K V → K × V → Except Failure (Emplaced K V)}

theorem getElem?_front {front back : List (Entry K V)} {entry : Entry K V} :
    (front ++ entry :: back)[front.length]? = some entry := by
  simp

/-- `emplace_new_key`, where growing and emplacing again adds the element. -/
theorem Sound.emplaceNewKey_adds (h : t.Sound hash) {front back : List (Entry K V)} {distance : Nat}
    (split : t.entries = front ++ back) (new : value.1 ∉ t.keys) (short : distance ≤ t.maxLookups)
    (stops : ∀ nearer item, back.head? = some (.filled nearer item) → nearer < distance)
    (home : t.index hash value.1 + distance = front.length)
    (rest : t.ArrangedFrom hash front.length distance back)
    (replaced : ∀ back', t.ArrangedFrom hash front.length distance back' →
      t.ArrangedFrom hash 0 0 (front ++ back'))
    (grows : ∀ entries : List (Entry K V), Movable { t with entries := entries } →
      (items entries).Perm t.elements →
      Ends (OutOfMemory allocate) (Emplaced.Added hash t value)
        (again { t with entries := entries } value)) :
    Ends (OutOfMemory allocate) (Emplaced.Added hash t value)
      (emplaceNewKey again t distance front.length value) := by
  have elements : t.elements = items front ++ items back := by
    rw [Table.elements, split, items_append]
  rw [emplaceNewKey]
  split
  · exact grows t.entries h.movable (.refl _)
  · next roomy =>
      simp only [not_or, not_lt] at roomy
      obtain ⟨slots, within, room⟩ := roomy
      have short' : distance < t.maxLookups := lt_of_le_of_ne short within
      rw [split, List.drop_left, List.take_left]
      cases rest with
      | stop last =>
          have inside := h.sized.index_lt hash slots value.1
          omega
      | @free _ _ back rest =>
          change Emplaced.Added hash t value _
          refine h.added ?_ ?_ new room getElem?_front
          · exact replaced _ (.filled (le_refl _) short' home (rest.raise (Nat.zero_le _)))
          · rw [elements, items_append, items_filled, items_free]
            exact List.perm_middle
      | @filled _ _ nearer old back near within' place rest =>
          change Ends (OutOfMemory allocate) (Emplaced.Added hash t value) (_ >>= _)
          have lt : nearer < distance := stops nearer old rfl
          have displaced := displace_keeps rest (le_refl _) (by omega)
            (show t.index hash old.1 + (nearer + 1) = _ by omega)
            fun v => h.sized.index_lt hash slots v.1
          refine (Never.outOfMemory displaced).bind ?_
          rintro (row | ⟨row, left⟩) ⟨arranged, same⟩
          · refine h.added ?_ ?_ new room getElem?_front
            · exact replaced _ (.filled (le_refl _) short' home (arranged.raise (by omega)))
            · rw [elements, items_append, items_filled, items_filled]
              exact List.perm_middle.trans ((same.append_left _).cons _)
          · have arranged' : t.ArrangedFrom hash 0 0 (front ++ .filled distance value :: row) :=
              replaced _ (.filled (le_refl _) short' home (arranged.raise (by omega)))
            have perm : (items (front ++ .filled distance left :: row)).Perm t.elements := by
              rw [elements, items_append, items_filled, items_filled]
              exact same.append_left _
            refine grows _ (h.movable_of_perm arranged'.closed.replace ?_ perm) perm
            have length := arranged'.length
            rw [endIt]
            simp only [List.length_append, List.length_cons] at length ⊢
            omega

theorem mem_keys_of_split {front back : List (Entry K V)} {distance : Nat}
    (split : t.entries = front ++ .filled distance value :: back) : value.1 ∈ t.keys := by
  refine List.mem_map_of_mem (f := Prod.fst) (mem_items.mpr ⟨distance, ?_⟩)
  rw [split]
  exact List.mem_append_right _ (List.mem_cons_self ..)

variable [DecidableEq K]

/-- `emplace` from some size on, if that many growths in each other reach a size that no
allocator grants. -/
theorem emplaceWithin_valid (refuses : Refuses allocate) (depth : Nat) {least : Nat}
    (enough : 2 ^ 63 ≤ least * 2 ^ depth) :
    Emplaces hash allocate (emplaceWithin (V := V) hash allocate depth) least := by
  induction depth generalizing least with
  | zero =>
      intro t value sound large
      have small := sound.sized.slots_lt
      rw [Nat.pow_zero, Nat.mul_one] at enough
      omega
  | succ depth ih =>
      intro t value sound large
      have enough' : 2 ^ 63 ≤ 2 * (t.numSlotsMinusOne + 1) * 2 ^ depth := by
        refine enough.trans ?_
        rw [Nat.pow_succ', ← Nat.mul_assoc, Nat.mul_comm least 2]
        exact Nat.mul_le_mul_right _ (Nat.mul_le_mul_left 2 large)
      rw [emplaceWithin]
      refine (Never.outOfMemory (sound.probe_located value.1)).bind fun probe located => ?_
      cases located with
      | @found front distance old back split =>
          refine ⟨fun _ => ⟨rfl, ⟨distance, old, ?_⟩, rfl⟩, fun new => absurd ?_ new⟩
          · rw [split]
            exact getElem?_front
          · have listed := mem_keys_of_split split
            exact listed
      | @missing front back distance split absent short stops home rest replaced =>
          refine (sound.emplaceNewKey_adds split absent short stops home rest replaced ?_).mono
            fun r added => ⟨fun listed => absurd listed absent, fun _ => added⟩
          intro entries movable same
          have new : value.1 ∉ Table.keys { t with entries := entries } :=
            fun listed => absent ((same.map Prod.fst).mem_iff.mp listed)
          refine (movable.grow_emplaces (ih enough') refuses new).mono fun r added => ?_
          exact { added with elements := added.elements.trans (same.cons value) }

/-- `emplace` keeps the element of a key that has one, and adds the others. -/
theorem Sound.emplace_valid (h : t.Sound hash) (refuses : Refuses allocate) (value : K × V) :
    Ends (OutOfMemory allocate) (Emplaced.Valid hash t value) (t.emplace hash allocate value) :=
  emplaceWithin_valid refuses 64 (show 2 ^ 63 ≤ 1 * 2 ^ 64 by decide) t value h (by omega)

end Table
end RazorCrypto.FlatHashMap
