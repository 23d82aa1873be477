import Mathlib.Algebra.Order.Field.Rat
import RazorCrypto.Foundation.Tolerance

/-!
# Tolerant comparisons of prices

`is_less` and `is_greater` compare with an absolute tolerance, `is_equal` with one relative to
its first argument, and the checks of prices are built on them. A `double` is taken as the
rational number it stands for, and the arithmetic as exact.
-/

namespace RazorCrypto.Common

open Tolerance

/-- `EPSILON`. -/
def EPSILON : ℚ := 1 / 100000000

/-- `DOUBLEMAX`, the largest finite `double`. -/
def DOUBLEMAX : ℚ := (2 ^ 53 - 1) * 2 ^ 971

/-- `is_greater`. -/
def isGreater (x y : ℚ) : Bool := x - y > EPSILON

/-- `is_less`. -/
def isLess (x y : ℚ) : Bool := x - y < -EPSILON

/-- `is_equal`. -/
def isEqual (x y : ℚ) : Bool := |x - y| ≤ EPSILON * |x|

/-- `is_greater_equal`. -/
def isGreaterEqual (x y : ℚ) : Bool := isGreater x y || isEqual x y

/-- `is_less_equal`. -/
def isLessEqual (x y : ℚ) : Bool := isLess x y || isEqual x y

/-- `is_zero`. -/
def isZero (x : ℚ) : Bool := isEqual x 0

/-- `is_too_large`. -/
def isTooLarge (x : ℚ) : Bool := isGreater x DOUBLEMAX

/-- `is_valid_price`. -/
def isValidPrice (price : ℚ) : Bool := !isLessEqual price 0 && !isTooLarge price

/-- The comparisons of `x` and `y` are those of an order. -/
structure Ordered (x y : ℚ) : Prop where
  one : ExactlyOne (isLess x y) (isEqual x y) (isGreater x y)
  symmetric : isEqual x y = isEqual y x
  lessEqual : isLessEqual x y ↔ ¬ isGreater x y

variable {x y : ℚ}

theorem EPSILON_pos : 0 < EPSILON := by
  unfold EPSILON
  decide +kernel

theorem isEqual_iff : isEqual x y ↔ |x - y| ≤ EPSILON * |x| := decide_eq_true_iff

theorem isEqual_comm_iff : isEqual y x ↔ |x - y| ≤ EPSILON * |y| := by
  rw [isEqual_iff, abs_sub_comm]

theorem exactlyOne_comparison : ExactlyOne (isLess x y) (isEqual x y) (isGreater x y) ↔
    |x - y| ≤ min EPSILON (EPSILON * |x|) ∨ max EPSILON (EPSILON * |x|) < |x - y| := by
  rw [← exactlyOne_iff EPSILON_pos.le]
  simp only [isLess, isEqual, isGreater, decide_eq_true_eq, gt_iff_lt]

/-- The comparisons agree exactly on pairs whose distance is within all three tolerances, the
absolute one and those relative to either argument, or beyond all three. -/
theorem ordered_iff : Ordered x y ↔
    |x - y| ≤ EPSILON * min 1 (min |x| |y|) ∨ EPSILON * max 1 (max |x| |y|) < |x - y| := by
  have nonneg := EPSILON_pos.le
  rw [mul_min_of_nonneg _ _ nonneg, mul_min_of_nonneg _ _ nonneg, mul_max_of_nonneg _ _ nonneg,
    mul_max_of_nonneg _ _ nonneg, mul_one, le_min_iff, le_min_iff, max_lt_iff, max_lt_iff]
  constructor
  · intro h
    have symmetric : isEqual x y ↔ isEqual y x := by rw [h.symmetric]
    rw [isEqual_iff, isEqual_comm_iff] at symmetric
    obtain within | beyond := exactlyOne_comparison.mp h.one
    · obtain ⟨absolute, relative⟩ := le_min_iff.mp within
      exact .inl ⟨absolute, relative, symmetric.mp relative⟩
    · obtain ⟨absolute, relative⟩ := max_lt_iff.mp beyond
      refine .inr ⟨absolute, relative, ?_⟩
      exact not_le.mp (mt symmetric.mpr relative.not_ge)
  · intro h
    have one : ExactlyOne (isLess x y) (isEqual x y) (isGreater x y) := by
      apply exactlyOne_comparison.mpr
      obtain ⟨absolute, relative, -⟩ | ⟨absolute, relative, -⟩ := h
      · exact .inl (le_min absolute relative)
      · exact .inr (max_lt absolute relative)
    refine ⟨one, ?_, ?_⟩
    · apply Bool.eq_iff_iff.mpr
      rw [isEqual_iff, isEqual_comm_iff]
      obtain ⟨-, first, second⟩ | ⟨-, first, second⟩ := h
      · exact iff_of_true first second
      · exact iff_of_false first.not_ge second.not_ge
    · rw [isLessEqual, Bool.or_eq_true]
      exact one.less_or_equal_iff

/-- Where they agree, the comparison the other way is its mirror image. -/
theorem Ordered.greaterEqual (h : Ordered x y) : isGreaterEqual x y ↔ ¬ isLess x y := by
  have one := h.one
  unfold ExactlyOne at one
  rw [isGreaterEqual, Bool.or_eq_true]
  tauto

/-- Near zero no comparison holds, and for larger numbers two can hold at once. -/
theorem not_ordered :
    ¬ (∀ x y, Ordered x y) ∧ ¬ Ordered 0 (1 / 1000000000) ∧
      [isLess 0 (1 / 1000000000), isEqual 0 (1 / 1000000000), isGreater 0 (1 / 1000000000)] =
        [false, false, false] ∧
      [isLess 2 (2 + 3 / 200000000), isEqual 2 (2 + 3 / 200000000),
        isGreater 2 (2 + 3 / 200000000)] = [true, true, false] := by
  have none : [isLess 0 (1 / 1000000000), isEqual 0 (1 / 1000000000),
      isGreater 0 (1 / 1000000000)] = [false, false, false] := by decide +kernel
  have two : [isLess 2 (2 + 3 / 200000000), isEqual 2 (2 + 3 / 200000000),
      isGreater 2 (2 + 3 / 200000000)] = [true, true, false] := by decide +kernel
  have not : ¬ Ordered 0 (1 / 1000000000) := by
    intro h
    obtain ⟨less, equal, greater, -⟩ := by simpa only [List.cons.injEq] using none
    have one := h.one
    rw [less, equal, greater] at one
    simp [ExactlyOne] at one
  exact ⟨fun all => not (all _ _), not, none, two⟩

/-! ## Checks of prices -/

/-- Compared with zero, nothing else is equal. -/
theorem isZero_iff : isZero x ↔ x = 0 := by
  unfold isZero
  rw [isEqual_iff, sub_zero]
  constructor
  · intro le
    by_contra ne
    have pos : 0 < |x| := abs_pos.mpr ne
    have small : EPSILON < 1 := by
      unfold EPSILON
      decide +kernel
    exact absurd le (mul_lt_of_lt_one_left pos small).not_ge
  · rintro rfl
    simp

/-- A price is valid also if it is negative by at most the tolerance. -/
theorem isValidPrice_iff : isValidPrice x ↔ x ≠ 0 ∧ -EPSILON ≤ x ∧ x ≤ DOUBLEMAX + EPSILON := by
  have zero : isEqual x 0 ↔ x = 0 := isZero_iff
  have large : isTooLarge x ↔ DOUBLEMAX + EPSILON < x := by
    unfold isTooLarge isGreater
    rw [decide_eq_true_iff, gt_iff_lt, lt_sub_iff_add_lt']
  have less : isLess x 0 ↔ x < -EPSILON := by
    unfold isLess
    rw [decide_eq_true_iff, sub_zero]
  rw [isValidPrice, Bool.and_eq_true, Bool.not_eq_true', Bool.not_eq_true', ← Bool.not_eq_true,
    ← Bool.not_eq_true, isLessEqual, Bool.or_eq_true, large, less, zero, not_or, not_lt, not_lt]
  tauto

example : isValidPrice (-1 / 1000000000) = true := by decide +kernel

end RazorCrypto.Common
