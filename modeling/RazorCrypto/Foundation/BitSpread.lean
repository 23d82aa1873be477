import Mathlib.Algebra.GroupWithZero.Nat
import Mathlib.Data.Nat.Log
import Mathlib.Order.Bounds.Defs

/-!
# Spreading bits downwards

The usual way to round up to a power of two without a loop takes the union of a number with
its own shifts, each time by twice the distance. `Spread w n m` says what such a union is: a
bit of `m` is set exactly if one of the `w` bits of `n` from there on is. Once `w` covers the
width of `n`, only the highest bit of `n` counts, and `m` is the number below the next power.
-/

namespace BitSpread

/-- Each bit of `n` is spread over the `w` places from it downwards. -/
def Spread (w n m : Nat) : Prop := ∀ i, m.testBit i = true ↔ ∃ j < w, n.testBit (i + j) = true

namespace Spread

variable {w n m : Nat}

theorem one : Spread 1 n n := by
  intro i
  simp

/-- The union with the shift by `w` covers twice the distance. -/
theorem double (h : Spread w n m) : Spread (w + w) n (m ||| m >>> w) := by
  intro i
  rw [Nat.testBit_or, Nat.testBit_shiftRight, Bool.or_eq_true, h i, h (w + i)]
  constructor
  · rintro (⟨j, near, bit⟩ | ⟨j, near, bit⟩)
    · exact ⟨j, by omega, bit⟩
    · exact ⟨w + j, by omega, by rwa [← Nat.add_assoc, Nat.add_comm i w]⟩
  · rintro ⟨j, near, bit⟩
    by_cases first : j < w
    · exact .inl ⟨j, first, bit⟩
    · refine .inr ⟨j - w, by omega, ?_⟩
      rwa [show w + i + (j - w) = i + j by omega]

/-- A full spread fills all places up to the highest bit. -/
theorem eq_two_pow_sub_one (h : Spread w n m) (nonzero : n ≠ 0) (small : n < 2 ^ w) :
    m = 2 ^ (n.log2 + 1) - 1 := by
  refine Nat.eq_of_testBit_eq fun i => ?_
  rw [Nat.testBit_two_pow_sub_one, Bool.eq_iff_iff, h i, decide_eq_true_iff]
  constructor
  · rintro ⟨j, -, bit⟩
    have le : 2 ^ (i + j) ≤ n := Nat.ge_two_pow_of_testBit bit
    have upto : i + j ≤ n.log2 := (Nat.le_log2 nonzero).mpr le
    omega
  · intro low
    have highest : n.log2 < w := (Nat.log2_lt nonzero).mpr small
    refine ⟨n.log2 - i, by omega, ?_⟩
    rw [show i + (n.log2 - i) = n.log2 by omega]
    exact Nat.testBit_log2 nonzero

end Spread

/-- Above a number that is no power of two, the next power is the one after its highest bit. -/
theorem clog_two_of_not_isPowerOfTwo {n : Nat} (nonzero : n ≠ 0)
    (between : ¬ n.isPowerOfTwo) : Nat.clog 2 n = n.log2 + 1 := by
  refine le_antisymm ?_ ?_
  · exact (Nat.clog_le_iff_le_pow Nat.one_lt_two).mpr Nat.lt_log2_self.le
  · refine (Nat.lt_clog_iff_pow_lt Nat.one_lt_two).mpr ?_
    refine lt_of_le_of_ne (Nat.log2_self_le nonzero) ?_
    exact fun power => between ⟨n.log2, power.symm⟩

/-- The same power, from the highest bit of the number below. -/
theorem clog_two_eq_log2_pred {n : Nat} (two : 2 ≤ n) : Nat.clog 2 n = (n - 1).log2 + 1 := by
  have nonzero : n - 1 ≠ 0 := by omega
  have above : n - 1 < 2 ^ ((n - 1).log2 + 1) := Nat.lt_log2_self
  refine le_antisymm ?_ ?_
  · apply (Nat.clog_le_iff_le_pow Nat.one_lt_two).mpr
    omega
  · apply (Nat.lt_clog_iff_pow_lt Nat.one_lt_two).mpr
    have below : 2 ^ (n - 1).log2 ≤ n - 1 := Nat.log2_self_le nonzero
    omega

/-- What rounding up to a power of two means. -/
theorem isLeast_two_pow_clog (n : Nat) :
    IsLeast { p | ∃ k, p = 2 ^ k ∧ n ≤ p } (2 ^ Nat.clog 2 n) := by
  refine ⟨⟨Nat.clog 2 n, rfl, Nat.le_pow_clog Nat.one_lt_two n⟩, ?_⟩
  rintro p ⟨k, rfl, le⟩
  apply Nat.pow_le_pow_right Nat.two_pos
  exact Nat.clog_le_of_le_pow le

end BitSpread
