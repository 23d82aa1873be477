import Mathlib.Logic.Basic

/-!
# Copying into a flat memory

A memory is a function from addresses to bytes. `copy` overwrites a range of it. What a copy
leaves alone is stated for any interval that begins at or before the range: the addresses
outside of the interval keep their values exactly if the part of the source that is copied
beyond the interval is already there.
-/

universe u

namespace FlatMemory

variable {β : Type u} {memory source : Nat → β} {start n i lo hi : Nat}

/-- The memory after `n` bytes of `source` were copied to the address `start`. -/
def copy (memory : Nat → β) (start : Nat) (source : Nat → β) (n : Nat) : Nat → β :=
  fun i => if start ≤ i ∧ i < start + n then source (i - start) else memory i

theorem copy_of_outside (outside : i < start ∨ start + n ≤ i) :
    copy memory start source n i = memory i :=
  if_neg (by omega)

theorem copy_inside (inside : i < n) : copy memory start source n (start + i) = source i := by
  rw [copy, if_pos (by omega), Nat.add_sub_cancel_left]

/-- A copy depends on the part of the source that it copies. -/
theorem copy_congr {source' : Nat → β} (same : ∀ i < n, source i = source' i) :
    copy memory start source n = copy memory start source' n := by
  funext i
  simp only [copy]
  split
  · next inside => exact same _ (by omega)
  · rfl

/-- A copy that begins where another one ends. -/
theorem copy_copy (source' : Nat → β) (m : Nat) :
    copy (copy memory start source n) (start + n) source' m =
      copy memory start (fun i => if i < n then source i else source' (i - n)) (n + m) := by
  funext i
  simp only [copy]
  by_cases later : start + n ≤ i ∧ i < start + n + m
  · rw [if_pos later, if_pos (by omega), if_neg (by omega)]
    congr 1
    omega
  · rw [if_neg later]
    by_cases earlier : start ≤ i ∧ i < start + n
    · rw [if_pos earlier, if_pos (by omega), if_pos (by omega)]
    · rw [if_neg earlier, if_neg (by omega)]

/-- What a copy does outside of an interval in which it begins. -/
theorem copy_frame_iff (begins : lo ≤ start) :
    (∀ i, i < lo ∨ hi ≤ i → copy memory start source n i = memory i) ↔
      ∀ j, j < n → hi ≤ start + j → source j = memory (start + j) := by
  constructor
  · intro frame j inside beyond
    rw [← frame (start + j) (Or.inr beyond), copy_inside inside]
  · intro same i outside
    by_cases inside : start ≤ i ∧ i < start + n
    · obtain ⟨j, rfl⟩ := Nat.exists_eq_add_of_le inside.1
      rw [copy_inside (by omega)]
      exact same j (by omega) (by omega)
    · exact if_neg inside

end FlatMemory
