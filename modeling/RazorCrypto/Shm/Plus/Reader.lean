import RazorCrypto.Shm.Plus.Invariant

/-!
# Attaching a reader

`get_shm` attaches an object to a region that another process keeps. It takes the block
length from the header, walks from record to record while `current_index >= 0`, and
enters each record it passed in the address map under the hash of the record's label. The walk has
no bound of its own, so it is given fuel: without an end marker it does not return.
-/

universe u

namespace RazorCrypto.Shm

open MachineInt

variable {α : Type u} [MarketData α]

namespace ShmMdPlus

/-- The loop of `get_shm` that moves `m_next_empty_md` to the first end marker. -/
def scanEnd (record : Nat → MdHeadPlus α) : Nat → Nat → Option Nat
  | 0, _ => none
  | fuel + 1, i => if 0 ≤ (record i).currentIndex then scanEnd record fuel (i + 1) else some i

/-- `load_instruments_addresses`: assignment through `operator[]`, so that the last record
with a label wins. -/
def loadInstrumentsAddresses (s : ShmMdPlus α) : ShmMdPlus α :=
  let enter := fun (map : AddressMap) index =>
    map.insert (comHash (s.shm.record index).name) index
  { s with mInstrumentsAddress := (List.range s.mNextEmptyMd).foldl enter s.mInstrumentsAddress }

/-- The fields that `get_shm` sets, once its scan has found the position `next`. -/
def attach (s : ShmMdPlus α) (shm : Region α) (shmSize next : Nat) : ShmMdPlus α :=
  { s with
    mShmHead := true
    shm := shm
    mShmSize := shmSize
    mdBlockNum := asInt32 shm.head.mdBuffNum
    mNextEmptyMd := next }

/-- `get_shm` on an existing region of `shmSize` bytes. -/
def getShm (s : ShmMdPlus α) (shm : Region α) (shmSize fuel : Nat) : Option (ShmMdPlus α) :=
  (scanEnd shm.record fuel 0).map fun next =>
    (s.attach shm shmSize next).loadInstrumentsAddresses

/-! ## The scan -/

variable {record : Nat → MdHeadPlus α} {fuel i n : Nat}

omit [MarketData α] in
/-- The scan passes live records and stops at the first record that is not. -/
theorem scanEnd_of_stop (start : i ≤ n)
    (live : ∀ j, i ≤ j → j < n → 0 ≤ (record j).currentIndex)
    (stop : (record n).currentIndex < 0) (enough : n < fuel + i) :
    scanEnd record fuel i = some n := by
  induction fuel generalizing i with
  | zero => omega
  | succ fuel ih =>
      by_cases last : i = n
      · subst last
        exact if_neg (by omega)
      · have before : i < n := by omega
        have rest := ih (i := i + 1) before (fun j low high => live j (by omega) high) (by omega)
        simpa only [scanEnd, if_pos (live i (Nat.le_refl i) before)] using rest

omit [MarketData α] in
/-- Where the scan stops there is no live record. -/
theorem stop_of_scanEnd (found : scanEnd record fuel i = some n) :
    (record n).currentIndex < 0 := by
  induction fuel generalizing i with
  | zero => cases found
  | succ fuel ih =>
      rw [scanEnd] at found
      split at found
      · exact ih found
      · next negative =>
          cases found
          omega

omit [MarketData α] in
/-- More fuel does not change what the scan finds. -/
theorem scanEnd_unique {fuel' n' : Nat}
    (found : scanEnd record fuel i = some n) (found' : scanEnd record fuel' i = some n') :
    n = n' := by
  induction fuel generalizing fuel' i with
  | zero => cases found
  | succ fuel ih =>
      cases fuel' with
      | zero => cases found'
      | succ fuel' =>
          rw [scanEnd] at found found'
          split at found
          · next live =>
              rw [if_pos live] at found'
              exact ih found found'
          · next marker =>
              rw [if_neg marker] at found'
              exact Option.some.inj (found.symm.trans found')

/-- A reader of a represented store finds exactly its records, in at most `M + 1` steps. -/
theorem Represents.scanEnd {M N : Nat} {b : Book comHash α} {s : ShmMdPlus α}
    (h : Represents M N b s) (enough : b.names.length < fuel) :
    scanEnd s.shm.record fuel 0 = some b.names.length := by
  have marked := h.marked b.names.length (Nat.le_refl _) h.room
  exact scanEnd_of_stop (Nat.zero_le _) (fun j _ inside => h.live j inside) (by omega) enough

/-! ## The rebuilt address map -/

/-- What the address map resolves after the labels of the first `n` records are entered
in an empty one. -/
theorem lookup_load (label : Nat → UInt64) (n : Nat) (key : UInt64) (i : Nat) :
    ((List.range n).foldl (fun (map : AddressMap) index => map.insert (label index) index)
      ∅).lookup key = some i ↔
      i < n ∧ label i = key ∧ ∀ j, i < j → j < n → label j ≠ key := by
  induction n with
  | zero => simp
  | succ n ih =>
      rw [List.range_succ, List.foldl_append, List.foldl_cons, List.foldl_nil]
      by_cases last : key = label n
      · subst last
        rw [AList.lookup_insert, Option.some.injEq]
        constructor
        · rintro rfl
          exact ⟨by omega, rfl, fun j low high => by omega⟩
        · rintro ⟨inside, -, latest⟩
          by_contra before
          exact latest n (by omega) (by omega) rfl
      · rw [AList.lookup_insert_ne last, ih]
        constructor
        · rintro ⟨inside, found, latest⟩
          refine ⟨by omega, found, ?_⟩
          intro j low high
          by_cases new : j = n
          · subst new
            exact Ne.symm last
          · exact latest j low (by omega)
        · rintro ⟨inside, found, latest⟩
          have old : i ≠ n := by
            rintro rfl
            exact last found.symm
          exact ⟨by omega, found, fun j low high => latest j low (by omega)⟩

end ShmMdPlus
end RazorCrypto.Shm
