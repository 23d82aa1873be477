import Mathlib.Algebra.Order.Field.Rat
import Mathlib.Data.Nat.Digits.Lemmas

/-!
# Decimal numerals as bytes

Numbers are written with the digits of `Nat.digits`, the most significant first and without
leading zeros, as the usual conversions to strings do. Reading a row of digits gives the number
back, and a row that does not begin with a zero is the numeral of its value. A numeral with
sign and point has a rational value, if it is well formed at all.
-/

namespace Decimal

/-- The byte of a digit. -/
def digit (d : Nat) : UInt8 := UInt8.ofNat (48 + d)

def IsDigit (c : UInt8) : Prop := 48 ≤ c.toNat ∧ c.toNat ≤ 57

instance (c : UInt8) : Decidable (IsDigit c) := inferInstanceAs (Decidable (_ ∧ _))

/-- A number without leading zeros. -/
def numeral (n : Nat) : List UInt8 :=
  if n = 0 then [digit 0] else (Nat.digits 10 n).reverse.map digit

/-- An integer, with a minus sign if it is negative. -/
def intNumeral (n : Int) : List UInt8 := if n < 0 then 45 :: numeral n.natAbs else numeral n.natAbs

/-- The number that a row of digits stands for. -/
def value (ds : List UInt8) : Nat := Nat.ofDigits 10 (ds.reverse.map fun c => c.toNat - 48)

variable {d n k : Nat} {c : UInt8} {ds es : List UInt8}

theorem toNat_digit (lt : d < 10) : (digit d).toNat = 48 + d := by
  rw [digit, UInt8.toNat_ofNat']
  omega

theorem isDigit_digit (lt : d < 10) : IsDigit (digit d) := by
  rw [IsDigit, toNat_digit lt]
  omega

theorem digit_sub (h : IsDigit c) : digit (c.toNat - 48) = c := by
  apply UInt8.toNat.inj
  obtain ⟨low, high⟩ := h
  rw [toNat_digit (by omega)]
  omega

/-! ## Reading -/

@[simp] theorem value_nil : value [] = 0 := rfl

theorem value_append : value (ds ++ es) = value ds * 10 ^ es.length + value es := by
  simp only [value, List.reverse_append, List.map_append, Nat.ofDigits_append, List.length_map,
    List.length_reverse]
  ring

theorem value_cons : value (c :: ds) = (c.toNat - 48) * 10 ^ ds.length + value ds := by
  have one : value [c] = c.toNat - 48 := by simp [value]
  rw [← one, ← value_append, List.singleton_append]

theorem value_lt (digits : ∀ c ∈ ds, IsDigit c) : value ds < 10 ^ ds.length := by
  have bound : value ds < 10 ^ (ds.reverse.map fun c => c.toNat - 48).length := by
    apply Nat.ofDigits_lt_base_pow_length (by decide)
    intro x member
    obtain ⟨c, in_, rfl⟩ := List.mem_map.mp member
    have high := (digits c (List.mem_reverse.mp in_)).2
    omega
  simpa using bound

/-! ## Writing -/

theorem numeral_zero : numeral 0 = [digit 0] := rfl

theorem numeral_of_ne_zero (nonzero : n ≠ 0) :
    numeral n = (Nat.digits 10 n).reverse.map digit := if_neg nonzero

theorem isDigit_of_mem_numeral (member : c ∈ numeral n) : IsDigit c := by
  by_cases zero : n = 0
  · subst zero
    rw [numeral_zero, List.mem_singleton] at member
    subst member
    exact isDigit_digit (by decide)
  · rw [numeral_of_ne_zero zero] at member
    obtain ⟨d, in_, rfl⟩ := List.mem_map.mp member
    exact isDigit_digit (Nat.digits_lt_base (by decide) (List.mem_reverse.mp in_))

theorem length_numeral_of_ne_zero (nonzero : n ≠ 0) :
    (numeral n).length = (Nat.digits 10 n).length := by
  rw [numeral_of_ne_zero nonzero, List.length_map, List.length_reverse]

theorem length_numeral_le_iff (pos : 0 < k) : (numeral n).length ≤ k ↔ n < 10 ^ k := by
  by_cases zero : n = 0
  · subst zero
    exact iff_of_true pos (by positivity)
  · rw [length_numeral_of_ne_zero zero]
    exact Nat.digits_length_le_iff (by decide) n

/-- How many digits there are is read off the number. -/
theorem length_numeral_eq_succ_iff (nonzero : n ≠ 0) (lt : n < 10 ^ (k + 1)) :
    (numeral n).length = k + 1 ↔ 10 ^ k ≤ n := by
  have upto := (length_numeral_le_iff (Nat.succ_pos k)).mpr lt
  have some_ : 0 < (numeral n).length := by
    rw [length_numeral_of_ne_zero nonzero]
    exact List.length_pos_iff.mpr (Nat.digits_ne_nil_iff_ne_zero.mpr nonzero)
  cases k with
  | zero =>
      refine iff_of_true (by omega) ?_
      rw [pow_zero]
      omega
  | succ k =>
      have fewer := length_numeral_le_iff (n := n) (Nat.succ_pos k)
      omega

theorem numeral_ne_nil (n : Nat) : numeral n ≠ [] := by
  by_cases zero : n = 0
  · subst zero
    exact List.cons_ne_nil _ _
  · rw [numeral_of_ne_zero zero]
    simpa [Nat.digits_eq_nil_iff_eq_zero] using zero

/-- There is no leading zero. -/
theorem head?_numeral_ne (nonzero : n ≠ 0) : (numeral n).head? ≠ some (digit 0) := by
  intro leading
  rw [numeral_of_ne_zero nonzero, List.head?_map, List.head?_reverse] at leading
  obtain ⟨d, last, zero⟩ := Option.map_eq_some_iff.mp leading
  obtain ⟨nonempty, rfl⟩ := List.mem_getLast?_eq_getLast last
  have small := Nat.digits_lt_base (b := 10) (by decide) (List.getLast_mem nonempty)
  have same := congrArg UInt8.toNat zero
  rw [toNat_digit small, toNat_digit (by decide)] at same
  have last_ne := Nat.getLast_digit_ne_zero 10 nonzero
  omega

/-- What is written is read back. -/
theorem value_numeral (n : Nat) : value (numeral n) = n := by
  by_cases zero : n = 0
  · subst zero
    decide
  · have back : (Nat.digits 10 n).map ((fun c : UInt8 => c.toNat - 48) ∘ digit) =
        Nat.digits 10 n := by
      refine (List.map_congr_left fun d member => ?_).trans (List.map_id _)
      have low : d < 10 := Nat.digits_lt_base (by decide) member
      rw [Function.comp_apply, toNat_digit low, id]
      omega
    rw [value, numeral_of_ne_zero zero, ← List.map_reverse, List.reverse_reverse, List.map_map,
      back, Nat.ofDigits_digits]

/-- A row of digits without a leading zero is what is written for its value. -/
theorem numeral_value (digits : ∀ c ∈ ds, IsDigit c) (nonempty : ds ≠ [])
    (leading : ds.head? ≠ some (digit 0)) : numeral (value ds) = ds := by
  have low : ∀ x ∈ ds.reverse.map (fun c => c.toNat - 48), x < 10 := by
    intro x member
    obtain ⟨c, in_, rfl⟩ := List.mem_map.mp member
    have high := (digits c (List.mem_reverse.mp in_)).2
    omega
  have last : ∀ h : ds.reverse.map (fun c => c.toNat - 48) ≠ [], List.getLast _ h ≠ 0 := by
    obtain ⟨c, ds, rfl⟩ := List.exists_cons_of_ne_nil nonempty
    intro _ zero
    have first : c.toNat - 48 = 0 := by simpa using zero
    have byte := digit_sub (digits c List.mem_cons_self)
    rw [first] at byte
    exact leading (congrArg some byte.symm)
  have back : Nat.digits 10 (value ds) = ds.reverse.map fun c => c.toNat - 48 :=
    Nat.digits_ofDigits 10 (by decide) _ low last
  have nonzero : value ds ≠ 0 := by
    intro zero
    rw [zero, Nat.digits_zero, eq_comm, List.map_eq_nil_iff, List.reverse_eq_nil_iff] at back
    exact nonempty back
  rw [numeral_of_ne_zero nonzero, back, ← List.map_reverse, List.reverse_reverse, List.map_map]
  exact (List.map_congr_left fun c member => digit_sub (digits c member)).trans (List.map_id _)

theorem intNumeral_natCast (n : Nat) : intNumeral n = numeral n := by
  rw [intNumeral, if_neg (by omega), Int.natAbs_natCast]

/-! ## Numerals with a sign and a point -/

/-- The value of digits with an optional point and digits after it. -/
def readUnsigned (s : List UInt8) : Option ℚ :=
  let whole := s.takeWhile (IsDigit ·)
  match s.dropWhile (IsDigit ·) with
  | [] => if whole = [] then none else some (value whole)
  | c :: frac =>
    if c = 46 ∧ whole ≠ [] ∧ frac ≠ [] ∧ frac.all (IsDigit ·) then
      some (value whole + value frac / 10 ^ frac.length)
    else none

/-- The value of a numeral with an optional minus sign. -/
def read : List UInt8 → Option ℚ
  | [] => none
  | c :: s => if c = 45 then (readUnsigned s).map (- ·) else readUnsigned (c :: s)

/-- A row of digits ends where something else begins. -/
theorem span_digits (digits : ∀ c ∈ ds, IsDigit c) (rest : List UInt8)
    (stop : ∀ c ∈ rest.head?, ¬ IsDigit c) :
    (ds ++ rest).takeWhile (IsDigit ·) = ds ∧ (ds ++ rest).dropWhile (IsDigit ·) = rest := by
  have all : ∀ c ∈ ds, decide (IsDigit c) = true := fun c member => decide_eq_true (digits c member)
  have none : rest.takeWhile (IsDigit ·) = [] ∧ rest.dropWhile (IsDigit ·) = rest := by
    cases rest with
    | nil => exact ⟨rfl, rfl⟩
    | cons c rest =>
        have other : ¬ decide (IsDigit c) = true := by simpa using stop c rfl
        exact ⟨List.takeWhile_cons_of_neg other, List.dropWhile_cons_of_neg other⟩
  rw [List.takeWhile_append_of_pos all, List.dropWhile_append_of_pos all, none.1, none.2,
    List.append_nil]
  exact ⟨rfl, rfl⟩

theorem readUnsigned_numeral (n : Nat) : readUnsigned (numeral n) = some (n : ℚ) := by
  have span := span_digits (fun c (member : c ∈ numeral n) => isDigit_of_mem_numeral member)
    [] nofun
  rw [List.append_nil] at span
  simp [readUnsigned, span.1, span.2, numeral_ne_nil, value_numeral]

theorem readUnsigned_point (n : Nat) (nonempty : ds ≠ []) (digits : ∀ c ∈ ds, IsDigit c) :
    readUnsigned (numeral n ++ 46 :: ds) = some ((n : ℚ) + value ds / 10 ^ ds.length) := by
  have span := span_digits (fun c (member : c ∈ numeral n) => isDigit_of_mem_numeral member)
    (46 :: ds) (by simp [IsDigit])
  have all : ds.all (IsDigit ·) := by simpa using digits
  have fraction : (46 : UInt8) = 46 ∧ numeral n ≠ [] ∧ ds ≠ [] ∧ ds.all (IsDigit ·) :=
    ⟨rfl, numeral_ne_nil n, nonempty, all⟩
  rw [readUnsigned, span.1, span.2]
  dsimp only
  rw [if_pos fraction, value_numeral]

/-- A second sign is not read. -/
theorem readUnsigned_minus (s : List UInt8) : readUnsigned (45 :: s) = none := by
  have span := @span_digits [] nofun (45 :: s) (by simp [IsDigit])
  rw [List.nil_append] at span
  rw [readUnsigned, span.1, span.2]
  exact if_neg fun h => h.2.1 rfl

theorem read_minus (s : List UInt8) : read (45 :: s) = (readUnsigned s).map (- ·) := by
  rw [read, if_pos rfl]

/-- A numeral begins without a sign. -/
theorem read_numeral_append (n : Nat) (s : List UInt8) :
    read (numeral n ++ s) = readUnsigned (numeral n ++ s) := by
  obtain ⟨c, ds, first⟩ := List.exists_cons_of_ne_nil (numeral_ne_nil n)
  have digit : IsDigit c := isDigit_of_mem_numeral (n := n) (first ▸ List.mem_cons_self)
  have sign : c ≠ 45 := by
    rintro rfl
    exact absurd digit (by decide)
  rw [first, List.cons_append]
  exact if_neg sign

example : read [45, 48, 46, 53] = some (-1 / 2) := by decide +kernel

end Decimal
