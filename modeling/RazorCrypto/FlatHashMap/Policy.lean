import RazorCrypto.Foundation.BitSpread

/-!
# Sizes and indices of the hash tables

`flat_hash_map` sizes its tables in powers of two and takes the index of a hash from the
highest bits of its product with a constant (`fibonacci_hash_policy`). Both rest on two
functions without loops: `log2`, which looks up the product of the highest set bit with
another constant, and `next_power_of_two`.
-/

namespace RazorCrypto.FlatHashMap

/-- The table of `log2`. -/
def log2Table : List Nat :=
  [63,  0, 58,  1, 59, 47, 53,  2,
   60, 39, 48, 27, 54, 33, 42,  3,
   61, 51, 37, 40, 49, 18, 28, 20,
   55, 30, 34, 11, 43, 14, 22,  4,
   62, 57, 46, 52, 38, 26, 32, 41,
   50, 36, 17, 19, 29, 10, 13, 21,
   56, 45, 25, 31, 35, 16,  9, 12,
   44, 24, 15,  8, 23,  7,  6,  5]

/-- The union of a number with its shifts by 1, 2, 4, 8, 16 and 32. -/
def smear (value : UInt64) : UInt64 :=
  let value := value ||| value >>> 1
  let value := value ||| value >>> 2
  let value := value ||| value >>> 4
  let value := value ||| value >>> 8
  let value := value ||| value >>> 16
  value ||| value >>> 32

/-- `log2`. -/
def log2 (value : UInt64) : Nat :=
  let value := smear value
  log2Table.getD (((value - value >>> 1) * 0x07EDD5E59A4E28C2) >>> 58).toNat 0

/-- `next_power_of_two`. -/
def nextPowerOfTwo (i : UInt64) : UInt64 := smear (i - 1) + 1

/-- `fibonacci_hash_policy::next_size_over`: the shift, and the size it writes back. -/
def nextSizeOver (size : UInt64) : Nat × UInt64 :=
  let size := max 2 (nextPowerOfTwo size)
  (64 - log2 size, size)

/-- `fibonacci_hash_policy::index_for_hash`. -/
def indexForHash (shift : Nat) (hash : UInt64) : Nat :=
  ((11400714819323198485 * hash) >>> UInt64.ofNat shift).toNat

/-- `min_lookups`. -/
def minLookups : Nat := 4

/-- `compute_max_lookups`. -/
def computeMaxLookups (numBuckets : UInt64) : Nat := max minLookups (log2 numBuckets)

/-! ## The highest bit -/

/-- The union of a word with its shift covers twice the distance. -/
theorem spread_shift {w n : Nat} {word step : UInt64} (h : BitSpread.Spread w n word.toNat)
    (distance : step.toNat % 64 = w) :
    BitSpread.Spread (w + w) n (word ||| word >>> step).toNat := by
  rw [UInt64.toNat_or, UInt64.toNat_shiftRight, distance]
  exact h.double

theorem smear_spread (value : UInt64) : BitSpread.Spread 64 value.toNat (smear value).toNat := by
  have two := spread_shift BitSpread.Spread.one (show UInt64.toNat 1 % 64 = 1 by decide)
    (n := value.toNat)
  have four := spread_shift two (show UInt64.toNat 2 % 64 = 2 by decide)
  have eight := spread_shift four (show UInt64.toNat 4 % 64 = 4 by decide)
  have sixteen := spread_shift eight (show UInt64.toNat 8 % 64 = 8 by decide)
  have half := spread_shift sixteen (show UInt64.toNat 16 % 64 = 16 by decide)
  exact spread_shift half (show UInt64.toNat 32 % 64 = 32 by decide)

/-- All places from the highest bit downwards. -/
theorem toNat_smear {value : UInt64} (nonzero : value ≠ 0) :
    (smear value).toNat = 2 ^ (value.toNat.log2 + 1) - 1 := by
  have positive : value.toNat ≠ 0 := fun zero => nonzero (UInt64.toNat_inj.mp zero)
  exact (smear_spread value).eq_two_pow_sub_one positive value.toNat_lt

/-- The highest bit alone. -/
theorem smear_sub_shift {value : UInt64} (nonzero : value ≠ 0) :
    smear value - smear value >>> 1 = UInt64.ofNat (2 ^ value.toNat.log2) := by
  have positive : value.toNat ≠ 0 := fun zero => nonzero (UInt64.toNat_inj.mp zero)
  have small : value.toNat.log2 < 64 := (Nat.log2_lt positive).mpr value.toNat_lt
  have bound : 2 ^ value.toNat.log2 < 2 ^ 64 := Nat.pow_lt_pow_right (by decide) small
  have pos : 0 < 2 ^ value.toNat.log2 := Nat.two_pow_pos _
  have twice : 2 ^ (value.toNat.log2 + 1) = 2 ^ value.toNat.log2 * 2 := Nat.pow_succ ..
  have half : (smear value >>> 1).toNat = 2 ^ value.toNat.log2 - 1 := by
    rw [UInt64.toNat_shiftRight, toNat_smear nonzero, twice]
    show (2 ^ value.toNat.log2 * 2 - 1) >>> 1 = _
    rw [Nat.shiftRight_succ, Nat.shiftRight_zero]
    omega
  apply UInt64.toNat_inj.mp
  rw [UInt64.toNat_sub_of_le, half, toNat_smear nonzero, UInt64.toNat_ofNat_of_lt' bound, twice]
  · omega
  · rw [UInt64.le_iff_toNat_le, half, toNat_smear nonzero, twice]
    omega

/-- The constant sends the 64 powers of two to different places of the table. -/
theorem log2Table_power (k : Fin 64) :
    log2Table.getD ((UInt64.ofNat (2 ^ k.val) * 0x07EDD5E59A4E28C2) >>> 58).toNat 0 = k := by
  revert k
  decide

/-- `log2` is the binary logarithm, rounded down, of each number but zero. -/
theorem log2_eq {value : UInt64} (nonzero : value ≠ 0) : log2 value = value.toNat.log2 := by
  have positive : value.toNat ≠ 0 := fun zero => nonzero (UInt64.toNat_inj.mp zero)
  have small : value.toNat.log2 < 64 := (Nat.log2_lt positive).mpr value.toNat_lt
  rw [log2, smear_sub_shift nonzero]
  exact log2Table_power ⟨value.toNat.log2, small⟩

theorem log2_two_pow {b : Nat} (small : b < 64) : log2 (UInt64.ofNat (2 ^ b)) = b := by
  have bound : 2 ^ b < 2 ^ 64 := Nat.pow_lt_pow_right (by decide) small
  have value : (UInt64.ofNat (2 ^ b)).toNat = 2 ^ b := UInt64.toNat_ofNat_of_lt' bound
  rw [log2_eq, value, Nat.log2_two_pow]
  intro zero
  rw [zero] at value
  exact (Nat.two_pow_pos b).ne value

/-! ## The next power of two -/

/-- Up to half the range, the next power of two is the least one that is not smaller. -/
theorem toNat_nextPowerOfTwo {i : UInt64} (positive : 0 < i.toNat) (small : i.toNat ≤ 2 ^ 63) :
    (nextPowerOfTwo i).toNat = 2 ^ Nat.clog 2 i.toNat := by
  have pred : (i - 1).toNat = i.toNat - 1 :=
    UInt64.toNat_sub_of_le i 1 (UInt64.le_iff_toNat_le.mpr positive)
  by_cases one : i.toNat = 1
  · have same : i = 1 := UInt64.toNat_inj.mp one
    subst same
    decide
  · have nonzero : i - 1 ≠ 0 := by
      intro zero
      rw [zero] at pred
      change 0 = _ at pred
      omega
    have log : (i.toNat - 1).log2 < 63 := (Nat.log2_lt (by omega)).mpr (by omega)
    have bound : 2 ^ ((i.toNat - 1).log2 + 1) ≤ 2 ^ 63 := Nat.pow_le_pow_right (by decide) log
    have pos : 0 < 2 ^ ((i.toNat - 1).log2 + 1) := Nat.two_pow_pos _
    rw [nextPowerOfTwo, UInt64.toNat_add, toNat_smear nonzero, pred,
      BitSpread.clog_two_eq_log2_pred (by omega)]
    show (_ - 1 + 1) % 2 ^ 64 = _
    rw [Nat.sub_add_cancel pos]
    exact Nat.mod_eq_of_lt (by omega)

/-- Above half the range there is no such power, and the result is zero. -/
theorem nextPowerOfTwo_of_large {i : UInt64} (large : i.toNat = 0 ∨ 2 ^ 63 < i.toNat) :
    nextPowerOfTwo i = 0 := by
  obtain zero | large := large
  · have same : i = 0 := UInt64.toNat_inj.mp zero
    subst same
    decide
  · have pred : (i - 1).toNat = i.toNat - 1 := by
      refine UInt64.toNat_sub_of_le i 1 (UInt64.le_iff_toNat_le.mpr ?_)
      show 1 ≤ i.toNat
      omega
    have nonzero : i - 1 ≠ 0 := by
      intro zero
      rw [zero] at pred
      change 0 = _ at pred
      omega
    have below := i.toNat_lt
    have log : (i.toNat - 1).log2 = 63 := by
      refine (Nat.log2_eq_iff (by omega)).mpr ⟨by omega, by omega⟩
    apply UInt64.toNat_inj.mp
    rw [nextPowerOfTwo, UInt64.toNat_add, toNat_smear nonzero, pred, log]
    decide

/-! ## The size and its shift -/

/-- Each size is a power of two, and the shift leaves as many bits of a hash as index it. Up to
half the range of a size it is the least power that is not smaller, and two at least. -/
theorem nextSizeOver_eq (size : UInt64) :
    ∃ b, 1 ≤ b ∧ b ≤ 63 ∧ nextSizeOver size = (64 - b, UInt64.ofNat (2 ^ b)) ∧
      (size.toNat ≤ 2 ^ 63 → b = max 1 (Nat.clog 2 size.toNat)) := by
  by_cases usual : 2 ≤ size.toNat ∧ size.toNat ≤ 2 ^ 63
  · obtain ⟨two, small⟩ := usual
    have low : 1 ≤ Nat.clog 2 size.toNat := Nat.clog_pos Nat.one_lt_two two
    have high : Nat.clog 2 size.toNat ≤ 63 := Nat.clog_le_of_le_pow small
    have power := toNat_nextPowerOfTwo (by omega) small
    have bound : 2 ^ Nat.clog 2 size.toNat < 2 ^ 64 :=
      Nat.pow_lt_pow_right (by decide) (by omega)
    have same : nextPowerOfTwo size = UInt64.ofNat (2 ^ Nat.clog 2 size.toNat) := by
      apply UInt64.toNat_inj.mp
      rw [power, UInt64.toNat_ofNat_of_lt' bound]
    have atLeast : 2 ^ 1 ≤ 2 ^ Nat.clog 2 size.toNat := Nat.pow_le_pow_right (by decide) low
    have kept : max 2 (nextPowerOfTwo size) = nextPowerOfTwo size := by
      refine if_pos (UInt64.le_iff_toNat_le.mpr ?_)
      rw [power]
      exact atLeast
    refine ⟨Nat.clog 2 size.toNat, low, high, ?_, fun _ => (max_eq_right low).symm⟩
    rw [nextSizeOver, kept, same, log2_two_pow (by omega)]
  · refine ⟨1, le_refl 1, by decide, ?_, ?_⟩
    · by_cases one : size.toNat = 1
      · have same : size = 1 := UInt64.toNat_inj.mp one
        subst same
        decide
      · rw [nextSizeOver, nextPowerOfTwo_of_large (by omega)]
        decide
    · intro small
      rw [Nat.clog_of_right_le_one (by omega)]
      rfl

/-- The index of a hash is inside of a table of the size that goes with the shift. -/
theorem indexForHash_lt {b : Nat} (low : 1 ≤ b) (high : b ≤ 63) (hash : UInt64) :
    indexForHash (64 - b) hash < 2 ^ b := by
  have shift : (UInt64.ofNat (64 - b)).toNat = 64 - b :=
    UInt64.toNat_ofNat_of_lt' (show 64 - b < 2 ^ 64 by omega)
  rw [indexForHash, UInt64.toNat_shiftRight, shift, Nat.mod_eq_of_lt (by omega),
    Nat.shiftRight_eq_div_pow]
  apply Nat.div_lt_of_lt_mul
  rw [← Nat.pow_add, Nat.sub_add_cancel (by omega)]
  exact UInt64.toNat_lt _

/-- Each power of two up to half the range is its own next size. -/
theorem nextSizeOver_two_pow {b : Nat} (low : 1 ≤ b) (high : b ≤ 63) :
    nextSizeOver (UInt64.ofNat (2 ^ b)) = (64 - b, UInt64.ofNat (2 ^ b)) := by
  have bound : 2 ^ b < 2 ^ 64 := Nat.pow_lt_pow_right (by decide) (by omega)
  have le : 2 ^ b ≤ 2 ^ 63 := Nat.pow_le_pow_right (by decide) high
  have value : (UInt64.ofNat (2 ^ b)).toNat = 2 ^ b := UInt64.toNat_ofNat_of_lt' bound
  obtain ⟨c, -, -, same, exact⟩ := nextSizeOver_eq (UInt64.ofNat (2 ^ b))
  rw [value, Nat.clog_pow 2 b Nat.one_lt_two, max_eq_right low] at exact
  rw [same, exact le]

/-- The sizes a table takes are the least powers of two that are large enough, and the highest
bits of each hash index a table of that size. -/
theorem nextSizeOver_isLeast (size hash : UInt64) (small : size.toNat ≤ 2 ^ 63) :
    IsLeast { p | ∃ k, p = 2 ^ k ∧ max 2 size.toNat ≤ p } (nextSizeOver size).2.toNat ∧
      log2 (nextSizeOver size).2 = 64 - (nextSizeOver size).1 ∧
      indexForHash (nextSizeOver size).1 hash < (nextSizeOver size).2.toNat := by
  obtain ⟨b, low, high, same, least⟩ := nextSizeOver_eq size
  have bound : 2 ^ b < 2 ^ 64 := Nat.pow_lt_pow_right (by decide) (by omega)
  have value : (UInt64.ofNat (2 ^ b)).toNat = 2 ^ b := UInt64.toNat_ofNat_of_lt' bound
  rw [same]
  dsimp only
  rw [value, log2_two_pow (by omega)]
  refine ⟨⟨⟨b, rfl, ?_⟩, ?_⟩, by omega, indexForHash_lt low high hash⟩
  · have two : 2 ^ 1 ≤ 2 ^ b := Nat.pow_le_pow_right (by decide) low
    have above : size.toNat ≤ 2 ^ Nat.clog 2 size.toNat := Nat.le_pow_clog Nat.one_lt_two _
    have le : 2 ^ Nat.clog 2 size.toNat ≤ 2 ^ b :=
      Nat.pow_le_pow_right (by decide) (by rw [least small]; exact le_max_right ..)
    exact max_le two (above.trans le)
  · rintro p ⟨k, rfl, le⟩
    apply Nat.pow_le_pow_right (by decide)
    rw [least small]
    refine max_le ?_ (Nat.clog_le_of_le_pow ((le_max_right ..).trans le))
    by_contra none
    have zero : k = 0 := by omega
    subst zero
    exact absurd ((le_max_left ..).trans le) (by decide)

theorem nextSizeOver_isLeast_five :
    IsLeast { p | ∃ k, p = 2 ^ k ∧ max 2 (5 : UInt64).toNat ≤ p } (nextSizeOver 5).2.toNat ∧
      log2 (nextSizeOver 5).2 = 64 - (nextSizeOver 5).1 ∧
      indexForHash (nextSizeOver 5).1 7 < (nextSizeOver 5).2.toNat :=
  nextSizeOver_isLeast 5 7 (by decide)

end RazorCrypto.FlatHashMap
