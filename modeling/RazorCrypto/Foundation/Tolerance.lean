import Mathlib.Algebra.Order.Group.Abs
import Mathlib.Tactic.Tauto

/-!
# Comparisons with a tolerance

A tolerant order calls `x` less or greater than `y` if they are more than `ε` apart, and equal
if they are at most `δ` apart. The three answers exclude each other and leave nothing out
exactly if the distance is on the same side of both tolerances.
-/

universe u

namespace Tolerance

/-- Exactly one of three answers. -/
def ExactlyOne (less equal greater : Prop) : Prop :=
  (less ∧ ¬equal ∧ ¬greater) ∨ (¬less ∧ equal ∧ ¬greater) ∨ (¬less ∧ ¬equal ∧ greater)

variable {K : Type u} [AddCommGroup K] [LinearOrder K] [IsOrderedAddMonoid K] {ε δ x y : K}

/-- At least one of the strict answers is given beyond `ε`. -/
theorem less_or_greater_iff : x - y < -ε ∨ ε < x - y ↔ ε < |x - y| := by
  rw [lt_abs, lt_neg, or_comm]

/-- And never both. -/
theorem not_less_and_greater (nonneg : 0 ≤ ε) : ¬ (x - y < -ε ∧ ε < x - y) := by
  rintro ⟨less, greater⟩
  have negative : x - y < 0 := less.trans_le (neg_nonpos.mpr nonneg)
  exact absurd (nonneg.trans_lt greater) negative.not_gt

/-- The distance is within both tolerances or beyond both. -/
theorem exactlyOne_iff (nonneg : 0 ≤ ε) :
    ExactlyOne (x - y < -ε) (|x - y| ≤ δ) (ε < x - y) ↔
      |x - y| ≤ min ε δ ∨ max ε δ < |x - y| := by
  have beyond : x - y < -ε ∨ ε < x - y ↔ ε < |x - y| := less_or_greater_iff
  have never : ¬ (x - y < -ε ∧ ε < x - y) := not_less_and_greater nonneg
  rw [le_min_iff, max_lt_iff, ← not_lt, ← not_lt, ← beyond]
  unfold ExactlyOne
  tauto

/-- Then the weak comparison is the negation of the opposite strict one. -/
theorem ExactlyOne.less_or_equal_iff {less equal greater : Prop}
    (one : ExactlyOne less equal greater) : less ∨ equal ↔ ¬greater := by
  unfold ExactlyOne at one
  tauto

end Tolerance
