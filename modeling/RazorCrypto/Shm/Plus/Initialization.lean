import RazorCrypto.Shm.Plus.Store

/-!
# What the initialisation of a store leaves behind

`set_shm_addr` and `re_init_shm` both run `init_shm` from the first record on. Its
first loop is described by `Entered`: which records it labels, and which names the
address map then resolves. An entry of the address map that was there before wins over
the record that was just labelled, which is what `insert` does. The end markers that
follow reach one record past the capacity.
-/

universe u

namespace RazorCrypto.Shm.ShmMdPlus

open MachineInt

variable {α : Type u} [MarketData α]

/-- The effect of the first loop of `init_shm`, started at the first record. -/
structure Entered (s : ShmMdPlus α) (names : List Name) (t : ShmMdPlus α) : Prop where
  next : t.mNextEmptyMd = names.length
  lookup : ∀ key, t.mInstrumentsAddress.lookup key =
    (s.mInstrumentsAddress.lookup key).or ((names.map comHash).idxOf? key)
  record : ∀ i, t.shm.record i = match names[i]? with
    | some name => MdHeadPlus.labelled name s.mdBlockNum
    | none => s.shm.record i
  mdNum : t.shm.head.mdNum = s.shm.head.mdNum + names.length
  frame : t = { s with
    mNextEmptyMd := t.mNextEmptyMd
    mInstrumentsAddress := t.mInstrumentsAddress
    shm := ⟨{ s.shm.head with mdNum := t.shm.head.mdNum }, t.shm.record⟩ }

private theorem idxOf?_concat (keys : List UInt64) (key other : UInt64) :
    (keys ++ [key]).idxOf? other =
      (keys.idxOf? other).or (if other = key then some keys.length else none) := by
  rw [List.idxOf?, List.findIdx?_append, ← List.idxOf?]
  congr 1
  by_cases same : other = key
  · simp [same]
  · have ne : key ≠ other := Ne.symm same
    simp [same, ne]

/-- One more iteration of the loop. -/
theorem Entered.concat {s t : ShmMdPlus α} {names : List Name} (h : Entered s names t)
    (name : Name) : Entered s (names ++ [name]) (t.initNext name) := by
  refine ⟨?_, ?_, ?_, ?_, ?_⟩
  · simp [initNext, initInstrumentShm, h.next]
  · intro key
    change (t.mInstrumentsAddress.insertNew (comHash name) t.mNextEmptyMd).lookup key = _
    rw [AddressMap.lookup_insertNew, List.map_append, List.map_singleton, idxOf?_concat,
      List.length_map, ← Option.or_assoc, ← h.lookup key, h.next]
    by_cases same : key = comHash name
    · subst same
      cases t.mInstrumentsAddress.lookup (comHash name) <;> simp
    · simp [same]
  · intro i
    have blockNum : t.mdBlockNum = s.mdBlockNum := by rw [h.frame]
    change Function.update t.shm.record t.mNextEmptyMd
      (MdHeadPlus.labelled name t.mdBlockNum) i = _
    rw [h.next, blockNum]
    by_cases last : i = names.length
    · subst last
      simp
    · rw [Function.update_of_ne last, h.record i]
      rcases Nat.lt_or_gt_of_ne last with inside | outside
      · rw [List.getElem?_append_left inside]
      · have old : names[i]? = none := List.getElem?_eq_none outside.le
        have new : (names ++ [name])[i]? = none := by
          apply List.getElem?_eq_none
          rw [List.length_append, List.length_singleton]
          exact outside
        rw [old, new]
  · change t.shm.head.mdNum + 1 = _
    rw [h.mdNum, List.length_append, List.length_singleton, Nat.add_assoc]
  · rw [h.frame]
    rfl

theorem entered_foldl (s : ShmMdPlus α) (start : s.mNextEmptyMd = 0) (names : List Name) :
    Entered s names (names.foldl initNext s) := by
  induction names using List.reverseRecOn with
  | nil =>
      refine ⟨start, ?_, ?_, rfl, rfl⟩
      · intro key
        simp
      · intro i
        simp
  | append_singleton names name ih =>
      rw [List.foldl_append]
      exact ih.concat name

omit [MarketData α] in
/-- The marker loop writes `current_index` of the records it passes, and nothing else. -/
theorem markTail_apply (record : Nat → MdHeadPlus α) (tail n i : Nat) :
    markTail record tail n i =
      if tail ≤ i ∧ i < tail + n then { record i with currentIndex := -1 } else record i := by
  induction n generalizing record tail with
  | zero =>
      rw [if_neg (by omega)]
      rfl
  | succ n ih =>
      rw [markTail, ih]
      by_cases here : i = tail
      · subst here
        rw [if_neg (by omega), if_pos (by omega), Function.update_self]
      · rw [Function.update_of_ne here]
        congr 1
        simp only [eq_iff_iff]
        omega

/-- The effect of `init_shm`, started at the first record. -/
structure Initialized (s : ShmMdPlus α) (names : List Name) (t : ShmMdPlus α) : Prop where
  next : t.mNextEmptyMd = names.length
  lookup : ∀ key, t.mInstrumentsAddress.lookup key =
    (s.mInstrumentsAddress.lookup key).or ((names.map comHash).idxOf? key)
  labelled : ∀ i (inside : i < names.length),
    t.shm.record i = MdHeadPlus.labelled names[i] s.mdBlockNum
  marked : ∀ i, names.length ≤ i → (i : Int) ≤ names.length + s.initLeft names →
    t.shm.record i = { s.shm.record i with currentIndex := -1 }
  beyond : ∀ i, names.length ≤ i → (names.length : Int) + s.initLeft names < i →
    t.shm.record i = s.shm.record i
  mdNum : t.shm.head.mdNum = s.shm.head.mdNum + names.length
  frame : t = { s with
    mNextEmptyMd := t.mNextEmptyMd
    mInstrumentsAddress := t.mInstrumentsAddress
    shm := ⟨{ s.shm.head with mdNum := t.shm.head.mdNum }, t.shm.record⟩ }

theorem initialized_initShm (s : ShmMdPlus α) (start : s.mNextEmptyMd = 0)
    (names : List Name) : Initialized s names (s.initShm names) := by
  have entered := entered_foldl s start names
  have record : ∀ i, (s.initShm names).shm.record i =
      markTail (names.foldl initNext s).shm.record names.length
        (s.initLeft names + 1).toNat i := by
    intro i
    rw [← entered.next]
    rfl
  refine ⟨entered.next, entered.lookup, ?_, ?_, ?_, entered.mdNum, ?_⟩
  · intro i inside
    rw [record, markTail_apply, if_neg (by omega), entered.record, List.getElem?_eq_getElem inside]
  · intro i low high
    rw [record, markTail_apply, if_pos (by omega), entered.record, List.getElem?_eq_none low]
  · intro i low high
    rw [record, markTail_apply, if_neg (by omega), entered.record, List.getElem?_eq_none low]
  · unfold initShm
    rw [entered.frame]

/-- The state in which a writing `set_shm_addr` starts `init_shm`. -/
def opening (s : ShmMdPlus α) (instruments : List Name) : ShmMdPlus α :=
  { s with
    mShmHead := true
    mNextEmptyMd := 0
    shm := { s.shm with head := { s.shm.head with mdNum := 0 } }
    mMdNum := asInt32 (s.mMdNum + instruments.length) }

/-- The state in which `re_init_shm` starts `init_shm`: the address map is kept. -/
def reopening (s : ShmMdPlus α) (instruments : List Name) : ShmMdPlus α :=
  { s.zeroShm with mNextEmptyMd := 0, mMdNum := asInt32 instruments.length }

omit [MarketData α] in
/-- The last statement of both initialising operations. -/
def resetUpdateNum (s : ShmMdPlus α) : ShmMdPlus α :=
  { s with shm := { s.shm with head := { s.shm.head with updateNum := 0 } } }

theorem setShmAddr_eq (s : ShmMdPlus α) (instruments : List Name) :
    s.setShmAddr instruments true = ((s.opening instruments).initShm instruments).resetUpdateNum :=
  rfl

theorem initialized_opening (s : ShmMdPlus α) (instruments : List Name) :
    Initialized (s.opening instruments) instruments
      ((s.opening instruments).initShm instruments) :=
  initialized_initShm _ rfl instruments

theorem initialized_reopening (s : ShmMdPlus α) (instruments : List Name) :
    Initialized (s.reopening instruments) instruments
      ((s.reopening instruments).initShm instruments) :=
  initialized_initShm _ rfl instruments

end RazorCrypto.Shm.ShmMdPlus
