import Mathlib.Data.Rat.Floor
import RazorCrypto.Foundation.Decimal
import RazorCrypto.Shm.Name

/-!
# Printing with a number of decimals

`str_round` prints the integer part and the scaled fraction as two integers with a point
between them, and a minus sign before both. A `double` is taken as the rational number it
stands for, and the arithmetic as exact.
-/

namespace RazorCrypto.Common

open Decimal Shm

/-- The conversion of a `double` to an integer: toward zero. -/
def truncate (q : ℚ) : Int := q.num.tdiv q.den

/-- `res` in `str_round`: the scaled fraction. -/
def scaledFraction (src : ℚ) (step : Nat) : Int := truncate |(src - truncate src) * 10 ^ step|

/-- `str_round`. -/
def strRound (src : ℚ) (step : Nat) : Name :=
  let inter := truncate src
  let res := scaledFraction src step
  let resString := if res ≠ 0 then intNumeral inter ++ 46 :: intNumeral res else intNumeral inter
  if src < 0 then 45 :: resString else resString

/-- The number that should be printed. -/
def truncatedTo (src : ℚ) (step : Nat) : ℚ := truncate (src * 10 ^ step) / 10 ^ step

example : strRound (-1 / 4) 2 = [45, 48, 46, 50, 53] := by decide +kernel

variable {q src : ℚ} {step : Nat}

/-! ## Truncation -/

theorem truncate_of_nonneg (nonneg : 0 ≤ q) : truncate q = ⌊q⌋₊ := by
  rw [truncate, Int.tdiv_eq_ediv_of_nonneg (Rat.num_nonneg.mpr nonneg), ← Rat.floor_def',
    Int.natCast_floor_eq_floor nonneg]

theorem truncate_neg : truncate (-q) = -truncate q := by
  rw [truncate, Rat.num_neg_eq_neg_num, Rat.den_neg_eq_den, Int.neg_tdiv, truncate]

theorem truncatedTo_neg : truncatedTo (-q) step = -truncatedTo q step := by
  rw [truncatedTo, neg_mul, truncate_neg, Int.cast_neg, neg_div, truncatedTo]

/-- The scaled fraction of a number that is not negative. -/
def scaled (q : ℚ) (step : Nat) : Nat := ⌊Int.fract q * 10 ^ step⌋₊

/-- The scaled fraction has at most as many digits as decimals are asked for. -/
theorem scaled_lt (q : ℚ) (step : Nat) : scaled q step < 10 ^ step := by
  have fract := Int.fract_nonneg q
  have power : (0 : ℚ) < 10 ^ step := by positivity
  apply (Nat.floor_lt (by positivity)).mpr
  push_cast
  exact mul_lt_of_lt_one_left power (Int.fract_lt_one q)

theorem eq_floor_add_fract (nonneg : 0 ≤ q) : q = ⌊q⌋₊ + Int.fract q := by
  rw [natCast_floor_eq_intCast_floor nonneg, Int.floor_add_fract]

/-- Truncation keeps the integer part and the scaled fraction. -/
theorem truncatedTo_of_nonneg (nonneg : 0 ≤ q) :
    truncatedTo q step = ⌊q⌋₊ + (scaled q step : ℚ) / 10 ^ step := by
  have power : (0 : ℚ) < 10 ^ step := by positivity
  have parts : q * 10 ^ step = Int.fract q * 10 ^ step + (⌊q⌋₊ * 10 ^ step : Nat) := by
    have split := eq_floor_add_fract nonneg
    calc q * 10 ^ step = (⌊q⌋₊ + Int.fract q) * 10 ^ step := by rw [← split]
      _ = _ := by
        push_cast
        ring
  have digits : truncate (q * 10 ^ step) = (scaled q step + ⌊q⌋₊ * 10 ^ step : Nat) := by
    rw [truncate_of_nonneg (by positivity), parts, Nat.floor_add_natCast]
    · rfl
    · positivity
  rw [truncatedTo, digits]
  push_cast
  field_simp
  ring

/-! ## The text -/

/-- What is printed of the scaled fraction. -/
def decimals (res : Nat) : Name := if res ≠ 0 then 46 :: numeral res else []

theorem scaledFraction_of_nonneg (nonneg : 0 ≤ q) : scaledFraction q step = scaled q step := by
  have rest : q - truncate q = Int.fract q := by
    rw [truncate_of_nonneg nonneg, Int.cast_natCast, natCast_floor_eq_intCast_floor nonneg]
    rfl
  have power : 0 ≤ Int.fract q * 10 ^ step := by
    have fract := Int.fract_nonneg q
    positivity
  rw [scaledFraction, rest, abs_of_nonneg power, truncate_of_nonneg power]
  rfl

theorem strRound_of_nonneg (nonneg : 0 ≤ q) :
    strRound q step = numeral ⌊q⌋₊ ++ decimals (scaled q step) := by
  unfold strRound decimals
  rw [scaledFraction_of_nonneg nonneg, truncate_of_nonneg nonneg]
  dsimp only
  rw [if_neg nonneg.not_gt, intNumeral_natCast, intNumeral_natCast]
  by_cases none : scaled q step = 0
  · simp [none]
  · simp [none]

theorem scaledFraction_neg : scaledFraction (-q) step = scaledFraction q step := by
  have opposite : (-q - truncate (-q)) * 10 ^ step = -((q - truncate q) * 10 ^ step) := by
    rw [truncate_neg]
    push_cast
    ring
  rw [scaledFraction, opposite, abs_neg, scaledFraction]

/-- Above -1 the sign is printed once. -/
theorem strRound_neg (pos : 0 < q) (lt : q < 1) : strRound (-q) step = 45 :: strRound q step := by
  have inter : truncate q = 0 := by
    rw [truncate_of_nonneg pos.le, Nat.floor_eq_zero.mpr lt]
    rfl
  have sign : -q < 0 := neg_lt_zero.mpr pos
  unfold strRound
  rw [scaledFraction_neg, truncate_neg, inter]
  dsimp only
  rw [if_pos sign, if_neg pos.not_gt, neg_zero]

/-- From -1 on downwards there are two signs. -/
theorem strRound_of_le (le : src ≤ -1) : ∃ rest, strRound src step = 45 :: 45 :: rest := by
  have one : 1 ≤ -src := le_neg.mpr le
  have negative : truncate src < 0 := by
    have floor : 1 ≤ ⌊-src⌋₊ := (Nat.one_le_floor_iff _).mpr one
    have opposite := truncate_neg (q := -src)
    rw [neg_neg, truncate_of_nonneg (zero_le_one.trans one)] at opposite
    omega
  have sign : src < 0 := lt_of_le_of_lt le (by norm_num)
  unfold strRound
  dsimp only
  rw [if_pos sign, intNumeral, if_pos negative]
  split
  · exact ⟨_, rfl⟩
  · exact ⟨_, rfl⟩

/-- The value of what is printed after the integer part. -/
theorem readUnsigned_strRound (nonneg : 0 ≤ q) : readUnsigned (strRound q step) =
    some (⌊q⌋₊ + if scaled q step = 0 then 0
      else (scaled q step : ℚ) / 10 ^ (numeral (scaled q step)).length) := by
  rw [strRound_of_nonneg nonneg, decimals]
  by_cases none : scaled q step = 0
  · rw [if_neg (not_not_intro none), if_pos none, List.append_nil, add_zero]
    exact readUnsigned_numeral _
  · rw [if_pos none, if_neg none, readUnsigned_point _ (numeral_ne_nil _)
      (fun c member => isDigit_of_mem_numeral member), value_numeral]

/-- The digits after the point are right if no leading zero is lost. -/
theorem decimals_iff (q : ℚ) (step : Nat) :
    ((if scaled q step = 0 then 0
      else (scaled q step : ℚ) / 10 ^ (numeral (scaled q step)).length) =
        (scaled q step : ℚ) / 10 ^ step) ↔
      Int.fract q < 1 / 10 ^ step ∨ 1 / 10 ≤ Int.fract q := by
  have fract := Int.fract_nonneg q
  have fract_lt := Int.fract_lt_one q
  have power : (0 : ℚ) < 10 ^ step := by positivity
  have vanishes : scaled q step = 0 ↔ Int.fract q < 1 / 10 ^ step := by
    rw [scaled, Nat.floor_eq_zero, lt_div_iff₀ power]
  by_cases none : scaled q step = 0
  · refine iff_of_true ?_ (.inl (vanishes.mp none))
    rw [if_pos none, none]
    simp
  · have some_ : (scaled q step : ℚ) ≠ 0 := Nat.cast_ne_zero.mpr none
    have length : (scaled q step : ℚ) / 10 ^ (numeral (scaled q step)).length =
        scaled q step / 10 ^ step ↔ (numeral (scaled q step)).length = step := by
      rw [div_eq_mul_inv, div_eq_mul_inv, mul_right_inj' some_, inv_inj]
      exact pow_right_inj₀ (by norm_num) (by norm_num)
    rw [if_neg none, length, or_iff_right (mt vanishes.mpr none)]
    cases step with
    | zero =>
        rw [vanishes, pow_zero, div_one] at none
        exact absurd fract_lt none
    | succ k =>
        have lt := scaled_lt q (k + 1)
        have tenth : (10 : ℚ) ^ k ≤ Int.fract q * 10 ^ (k + 1) ↔ 1 / 10 ≤ Int.fract q := by
          have base : (0 : ℚ) < 10 ^ k := by positivity
          have shift : Int.fract q * 10 ^ (k + 1) = 10 ^ k * (Int.fract q * 10) := by ring
          rw [shift, le_mul_iff_one_le_right base, div_le_iff₀ (by norm_num)]
        rw [length_numeral_eq_succ_iff none lt, scaled, Nat.le_floor_iff (by positivity)]
        push_cast
        exact tenth

/-- `str_round` prints the truncated value exactly above -1, where the fraction vanishes or has
no leading zero. -/
theorem read_strRound_iff (src : ℚ) (step : Nat) :
    read (strRound src step) = some (truncatedTo src step) ↔
      -1 < src ∧ (Int.fract |src| < 1 / 10 ^ step ∨ 1 / 10 ≤ Int.fract |src|) := by
  -- a number that is not negative is read as it stands
  have exact_ : ∀ {q : ℚ}, 0 ≤ q →
      (readUnsigned (strRound q step) = some (truncatedTo q step) ↔
        Int.fract q < 1 / 10 ^ step ∨ 1 / 10 ≤ Int.fract q) := by
    intro q nonneg
    rw [readUnsigned_strRound nonneg, truncatedTo_of_nonneg nonneg, Option.some_inj,
      add_right_inj, decimals_iff]
  obtain nonneg | negative := le_or_gt 0 src
  · have text : read (strRound src step) = readUnsigned (strRound src step) := by
      rw [strRound_of_nonneg nonneg, read_numeral_append]
    rw [text, exact_ nonneg, abs_of_nonneg nonneg, and_iff_right (by linarith)]
  · obtain le | gt := le_or_gt src (-1)
    · obtain ⟨rest, text⟩ : ∃ rest, strRound src step = 45 :: 45 :: rest := strRound_of_le le
      rw [text, read_minus, readUnsigned_minus]
      exact iff_of_false nofun fun h => absurd h.1 le.not_gt
    · have text : strRound src step = 45 :: strRound (-src) step := by
        rw [← strRound_neg (neg_pos.mpr negative) (neg_lt.mp gt), neg_neg]
      have value : truncatedTo src step = -truncatedTo (-src) step := by
        rw [← truncatedTo_neg, neg_neg]
      rw [text, read_minus, value, abs_of_neg negative, and_iff_right gt,
        ← exact_ (neg_pos.mpr negative).le]
      cases readUnsigned (strRound (-src) step) with
      | none => exact iff_of_false nofun nofun
      | some v =>
          rw [Option.map_some, Option.some_inj, Option.some_inj]
          exact neg_inj

/-- A zero after the point is lost, and a negative integer part brings its own sign. -/
theorem not_read_strRound :
    ¬ (∀ src step, |src| < 2 ^ 31 → step ≤ 9 →
      read (strRound src step) = some (truncatedTo src step)) ∧
    strRound (105 / 100) 2 = [49, 46, 53] ∧ strRound (-3 / 2) 1 = [45, 45, 49, 46, 53] := by
  have lost : strRound (105 / 100) 2 = [49, 46, 53] := by decide +kernel
  have signs : strRound (-3 / 2) 1 = [45, 45, 49, 46, 53] := by decide +kernel
  refine ⟨?_, lost, signs⟩
  intro all
  have wrong := all (105 / 100) 2 (by decide +kernel) (by decide)
  rw [lost] at wrong
  exact absurd wrong (by decide +kernel)

/-! ## Integers -/

/-- For the numbers and decimals it is used with, all integers of `str_round` are far from the
ends of 64 bits. -/
theorem strRound_int64 (range : |src| < 2 ^ 31) (few : step ≤ 9) :
    |truncate src| < 2 ^ 31 ∧ 0 ≤ scaledFraction src step ∧
      scaledFraction src step < 10 ^ 9 ∧ 10 ^ step ≤ 10 ^ 9 := by
  have power : 10 ^ step ≤ 10 ^ 9 := Nat.pow_le_pow_right (by decide) few
  have main : ∀ {q : ℚ}, 0 ≤ q → q < 2 ^ 31 →
      truncate q < 2 ^ 31 ∧ 0 ≤ truncate q ∧ scaledFraction q step = scaled q step := by
    intro q nonneg lt
    have floor : ⌊q⌋₊ < 2 ^ 31 := by
      apply (Nat.floor_lt nonneg).mpr
      exact_mod_cast lt
    rw [truncate_of_nonneg nonneg]
    exact ⟨by omega, by omega, scaledFraction_of_nonneg nonneg⟩
  obtain nonneg | negative := le_total 0 src
  · rw [abs_of_nonneg nonneg] at range
    obtain ⟨upper, lower, same⟩ := main nonneg range
    have digits := scaled_lt src step
    rw [abs_of_nonneg lower, same]
    exact ⟨upper, by omega, by omega, power⟩
  · rw [abs_of_nonpos negative] at range
    obtain ⟨upper, lower, same⟩ := main (neg_nonneg.mpr negative) range
    have digits := scaled_lt (-src) step
    rw [scaledFraction_neg] at same
    rw [truncate_neg] at upper lower
    rw [abs_of_nonpos (by omega), same]
    exact ⟨upper, by omega, by omega, power⟩

end RazorCrypto.Common
