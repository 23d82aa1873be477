import Mathlib.Data.Int.Basic

/-!
# Fixed-width views of integers

Conversions of C and C++ between integer types of fixed width, as functions on `Int`:
a value keeps its residue modulo the width and is read back as signed (two's
complement) or unsigned. A value already in the target range is unchanged, which
is the only fact most developments need.
-/

namespace MachineInt

/-- Conversion to a signed 32-bit integer. -/
def asInt32 (x : Int) : Int := Int.bmod x 4294967296

/-- Conversion to a signed 64-bit integer. -/
def asInt64 (x : Int) : Int := Int.bmod x 18446744073709551616

/-- Conversion to an unsigned 32-bit integer. -/
def asUInt32 (x : Int) : Nat := (x % 4294967296).toNat

/-- Conversion to an unsigned 64-bit integer. -/
def asUInt64 (x : Int) : Nat := (x % 18446744073709551616).toNat

theorem asInt32_of_mem {x : Int} (low : -2147483648 ≤ x) (high : x < 2147483648) :
    asInt32 x = x := by
  dsimp only [asInt32, Int.bmod]
  split <;> omega

/-- A value in the upper half of the unsigned range is read back negative. -/
theorem asInt32_of_upper {x : Int} (low : 2147483648 ≤ x) (high : x < 4294967296) :
    asInt32 x = x - 4294967296 := by
  dsimp only [asInt32, Int.bmod]
  split <;> omega

theorem asInt64_of_mem {x : Int} (low : -9223372036854775808 ≤ x)
    (high : x < 9223372036854775808) : asInt64 x = x := by
  dsimp only [asInt64, Int.bmod]
  split <;> omega

theorem asUInt64_of_mem {x : Int} (low : 0 ≤ x) (high : x < 18446744073709551616) :
    asUInt64 x = x.toNat := by
  unfold asUInt64
  omega

theorem asUInt64_natCast {n : Nat} (high : n < 18446744073709551616) :
    asUInt64 (n : Int) = n := by
  rw [asUInt64_of_mem (by omega) (by omega), Int.toNat_natCast]

theorem asUInt64_lt (x : Int) : asUInt64 x < 18446744073709551616 := by
  unfold asUInt64
  omega

/-- The decrement of a zero counter wraps to the largest unsigned value. -/
theorem asUInt64_neg_one : asUInt64 (-1) = 18446744073709551615 := by decide

theorem asInt32_bounds (x : Int) : -2147483648 ≤ asInt32 x ∧ asInt32 x < 2147483648 := by
  dsimp only [asInt32, Int.bmod]
  split <;> omega

/-- Converting twice is converting once, also after an intermediate sum. -/
theorem asInt32_add_asInt32 (x y : Int) : asInt32 (asInt32 x + y) = asInt32 (x + y) := by
  unfold asInt32
  exact Int.bmod_add_bmod

theorem asInt32_sub_asInt32 (x y : Int) : asInt32 (asInt32 x - asInt32 y) = asInt32 (x - y) := by
  unfold asInt32
  rw [Int.bmod_sub_bmod, Int.sub_bmod_bmod]

theorem asInt32_mul_add (x k y : Int) : asInt32 (asInt32 x * k + y) = asInt32 (x * k + y) := by
  unfold asInt32
  rw [← Int.bmod_add_bmod, Int.bmod_mul_bmod, Int.bmod_add_bmod]

theorem asUInt32_asInt32 (x : Int) : asUInt32 (asInt32 x) = asUInt32 x := by
  unfold asUInt32 asInt32
  exact congrArg Int.toNat (Int.bmod_emod ..)

theorem asUInt32_natCast (n : Nat) : asUInt32 n = n % 4294967296 := by
  unfold asUInt32
  omega

/-- A conversion takes away the multiple of the width that is nearest. -/
theorem asInt32_eq (x : Int) :
    asInt32 x = x - 4294967296 * ((x + 2147483648) / 4294967296) := by
  dsimp only [asInt32, Int.bmod]
  split <;> omega

theorem asInt32_add_one_ne (x : Int) : asInt32 (x + 1) ≠ asInt32 x := by
  rw [asInt32_eq, asInt32_eq]
  omega

/-- Two counters less than half the range apart compare like their conversions, unless the
sign flips between them: at an odd multiple of half the range. -/
theorem asInt32_lt_asInt32_iff {a b : Nat} (le : a ≤ b) (near : b < a + 2147483648) :
    asInt32 a < asInt32 b ↔
      a < b ∧ ∀ m, ¬ (a < 2147483648 * (2 * m + 1) ∧ 2147483648 * (2 * m + 1) ≤ b) := by
  rw [asInt32_eq, asInt32_eq]
  constructor
  · intro lt
    refine ⟨by omega, ?_⟩
    rintro m ⟨after, upto⟩
    omega
  · rintro ⟨lt, steady⟩
    have here := steady ((b + 2147483648) / 4294967296 - 1)
    omega

-- The lemmas above are the interface: unification must not unfold the moduli.
attribute [irreducible] asInt32 asInt64 asUInt32 asUInt64

end MachineInt
