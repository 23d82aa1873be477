import Mathlib.Algebra.Order.BigOperators.Group.List
import Mathlib.Algebra.Order.Group.Int
import Mathlib.Algebra.Ring.Int.Defs
import Mathlib.Data.List.Induction
import RazorCrypto.Foundation.MachineInt

/-!
# Count, total and least of a list in 64 bits

A tally keeps the number, the sum and the least of the values it was given, in unsigned words
of 64 bits. Given integers, it takes each of them modulo `2 ^ 64`. The three words are exact
precisely if no integer is negative and neither the number nor the sum overflows.
-/

namespace WrappingTally

open MachineInt

/-- The three words. -/
structure Tally where
  count : UInt64
  total : UInt64
  least : UInt64

namespace Tally

/-- Before the first value; the least value is the largest word. -/
def empty : Tally := ⟨0, 0, 18446744073709551615⟩

/-- The tally after one more value. -/
def add (t : Tally) (value : UInt64) : Tally :=
  ⟨t.count + 1, t.total + value, if value < t.least then value else t.least⟩

@[simp] theorem add_least (t : Tally) (value : UInt64) :
    (t.add value).least = if value < t.least then value else t.least := rfl

end Tally

/-- The tally of integers, each as a word. -/
def tally (ds : List Int) : Tally := ds.foldl (fun t d => t.add (UInt64.ofInt d)) .empty

variable {ds : List Int} {d : Int}

theorem tally_append (ds : List Int) (d : Int) :
    tally (ds ++ [d]) = (tally ds).add (UInt64.ofInt d) := by
  rw [tally, List.foldl_append]
  rfl

theorem toNat_ofInt (d : Int) : (UInt64.ofInt d).toNat = asUInt64 d := by
  rw [UInt64.ofInt, UInt64.toNat_ofNat']
  unfold asUInt64
  omega

/-- Words of integers are equal only if the integers have the same residue. -/
theorem emod_eq_of_ofInt_eq {x y : Int} (same : UInt64.ofInt x = UInt64.ofInt y) :
    x % 18446744073709551616 = y % 18446744073709551616 := by
  have words := congrArg UInt64.toNat same
  rw [toNat_ofInt, toNat_ofInt] at words
  unfold asUInt64 at words
  have nonneg := Int.emod_nonneg x (show (18446744073709551616 : Int) ≠ 0 by decide)
  have nonneg' := Int.emod_nonneg y (show (18446744073709551616 : Int) ≠ 0 by decide)
  omega

theorem toNat_ofInt_of_mem (low : 0 ≤ d) (high : d < 18446744073709551616) :
    ((UInt64.ofInt d).toNat : Int) = d := by
  rw [toNat_ofInt, asUInt64_of_mem low high]
  omega

theorem ofInt_toNat (word : UInt64) : UInt64.ofInt word.toNat = word := by
  apply UInt64.toNat_inj.mp
  rw [toNat_ofInt, asUInt64_natCast word.toNat_lt]

theorem ofInt_sub (x y : Int) : UInt64.ofInt (x - y) = UInt64.ofInt x - UInt64.ofInt y := by
  rw [Int.sub_eq_add_neg, UInt64.ofInt_add, UInt64.ofInt_neg, UInt64.sub_eq_add_neg]

theorem toNat_count (ds : List Int) :
    (tally ds).count.toNat = ds.length % 18446744073709551616 := by
  induction ds using List.reverseRecOn with
  | nil => rfl
  | append_singleton ds d ih =>
      rw [tally_append, List.length_append, List.length_singleton]
      show ((tally ds).count + 1).toNat = _
      rw [UInt64.toNat_add, ih]
      exact Nat.mod_add_mod ..

theorem toNat_total (ds : List Int) : (tally ds).total.toNat = asUInt64 ds.sum := by
  induction ds using List.reverseRecOn with
  | nil => exact (asUInt64_natCast (show 0 < 18446744073709551616 by decide)).symm
  | append_singleton ds d ih =>
      rw [tally_append]
      show ((tally ds).total + UInt64.ofInt d).toNat = _
      rw [UInt64.toNat_add, ih, toNat_ofInt, List.sum_append, List.sum_singleton]
      unfold asUInt64
      omega

/-- The least word is at most each of the values. -/
theorem least_le (ds : List Int) : ∀ d ∈ ds, (tally ds).least ≤ UInt64.ofInt d := by
  induction ds using List.reverseRecOn with
  | nil => exact fun d member => nomatch member
  | append_singleton ds new ih =>
      intro d member
      rw [tally_append, Tally.add_least]
      obtain old | rfl := (List.mem_append.mp member).imp_right List.mem_singleton.mp
      · split
        · next less => exact UInt64.le_trans (UInt64.le_of_lt less) (ih d old)
        · exact ih d old
      · split
        · exact UInt64.le_refl _
        · next least => exact UInt64.not_lt.mp least

/-- It is one of them, or still the largest word. -/
theorem least_mem (ds : List Int) :
    (∃ d ∈ ds, (tally ds).least = UInt64.ofInt d) ∨
      (tally ds).least = 18446744073709551615 := by
  induction ds using List.reverseRecOn with
  | nil => exact Or.inr rfl
  | append_singleton ds new ih =>
      rw [tally_append, Tally.add_least]
      split
      · exact Or.inl ⟨new, List.mem_append_right _ (List.mem_singleton_self _), rfl⟩
      · exact ih.imp_left fun ⟨d, old, same⟩ => ⟨d, List.mem_append_left _ old, same⟩

/-- Of a list with values, it is one of them. -/
theorem exists_least (nonempty : ds ≠ []) : ∃ d ∈ ds, (tally ds).least = UInt64.ofInt d := by
  obtain found | largest := least_mem ds
  · exact found
  · obtain ⟨d, member⟩ := List.exists_mem_of_ne_nil ds nonempty
    refine ⟨d, member, UInt64.le_antisymm (least_le ds d member) ?_⟩
    rw [largest, UInt64.le_iff_toNat_le]
    exact Nat.le_of_lt_succ (UInt64.toNat_lt _)

/-! ## Exactness -/

/-- The words say what they are meant to say of the integers: their number and, if there are
some, the least of them and their mean. -/
structure Exact (ds : List Int) (t : Tally) : Prop where
  count : t.count.toNat = ds.length
  least : 0 < t.count → (t.least.toNat : Int) ∈ ds ∧ ∀ d ∈ ds, (t.least.toNat : Int) ≤ d
  mean : 0 < t.count → mkRat t.total.toNat t.count.toNat = mkRat ds.sum ds.length

theorem count_pos_iff (count : (tally ds).count.toNat = ds.length) :
    0 < (tally ds).count ↔ ds ≠ [] := by
  rw [UInt64.lt_iff_toNat_lt, count]
  exact List.length_pos_iff

theorem Exact.sum_lt (h : Exact ds (tally ds)) : ds.sum < 18446744073709551616 := by
  by_cases nonempty : ds = []
  · subst nonempty
    decide
  · have mean := h.mean ((count_pos_iff h.count).mpr nonempty)
    have count : ds.length ≠ 0 := mt List.length_eq_zero_iff.mp nonempty
    rw [h.count, Rat.mkRat_eq_iff count count] at mean
    have same := Int.eq_of_mul_eq_mul_right (by omega) mean
    have lt := (tally ds).total.toNat_lt
    omega

/-- The words of a tally are exact precisely if no integer is negative and nothing overflows. -/
theorem tally_exact_iff (ds : List Int) : Exact ds (tally ds) ↔
    ds.length < 18446744073709551616 ∧ (∀ d ∈ ds, 0 ≤ d) ∧ ds.sum < 18446744073709551616 := by
  constructor
  · intro exact
    refine ⟨?_, ?_, exact.sum_lt⟩
    · have count := exact.count
      rw [toNat_count] at count
      omega
    · intro d member
      have pos := (count_pos_iff exact.count).mpr (List.ne_nil_of_mem member)
      have le := (exact.least pos).2 d member
      omega
  · rintro ⟨short, nonneg, small⟩
    have bounded : ∀ d ∈ ds, d < 18446744073709551616 := fun d member =>
      Int.lt_of_le_of_lt (List.single_le_sum nonneg d member) small
    have count : (tally ds).count.toNat = ds.length := by
      rw [toNat_count, Nat.mod_eq_of_lt short]
    refine ⟨count, ?_, ?_⟩
    · intro pos
      obtain ⟨d, member, least⟩ := exists_least ((count_pos_iff count).mp pos)
      have value : ((tally ds).least.toNat : Int) = d := by
        rw [least, toNat_ofInt_of_mem (nonneg d member) (bounded d member)]
      refine ⟨value ▸ member, ?_⟩
      intro other member'
      have le := UInt64.le_iff_toNat_le.mp (least_le ds other member')
      have value' := toNat_ofInt_of_mem (nonneg other member') (bounded other member')
      omega
    · intro pos
      have sum : 0 ≤ ds.sum := List.sum_nonneg nonneg
      have total : ((tally ds).total.toNat : Int) = ds.sum := by
        rw [toNat_total, asUInt64_of_mem sum small]
        omega
      rw [total, count]

end WrappingTally
