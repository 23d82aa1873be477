import Mathlib.Logic.Function.Basic
import RazorCrypto.Foundation.MachineInt

/-!
# The ring buffer of the message queue

`K4RingBuffer` keeps messages in slots that are found from their sequence numbers, with a
mask if the size is a power of two and with a remainder if not. `push` is modelled here as
it runs alone: where the code would then spin for ever, it has no result. The 64-bit
counters grow by one for each message and are taken as unbounded.
-/

universe u

namespace RazorCrypto.Mq

open MachineInt

/-- `K4RingBuffer`. -/
structure K4RingBuffer (τ : Type u) where
  head : Nat
  tail : Nat
  ringSize : Int
  indexMode : Int
  ring : Nat → τ

namespace K4RingBuffer

variable {τ : Type u}

/-- `init`. -/
def init (r : K4RingBuffer τ) (len : Int) : K4RingBuffer τ × Bool :=
  if len ≤ 1 then (r, false)
  else
    let res := len.toNat &&& (len - 1).toNat
    ({ r with
        indexMode := if res = 0 then 0 else 1
        ringSize := len
        head := 0
        tail := 0 }, true)

/-- The slot of a sequence number. -/
def sequenceIndex (r : K4RingBuffer τ) (sequence : Nat) : Nat :=
  if r.indexMode = 0 then sequence &&& asUInt64 (r.ringSize - 1)
  else sequence % asUInt64 r.ringSize

/-- `get_by_sequence`: the message its result points to. -/
def getBySequence (r : K4RingBuffer τ) (sequence : Nat) : τ := r.ring (r.sequenceIndex sequence)

/-- `get_cur_sequence`. -/
def getCurSequence (r : K4RingBuffer τ) : Nat := r.tail

/-- `push`, for both kinds of reference. In single-producer mode nothing is tested. -/
def push (r : K4RingBuffer τ) (data : τ) (isSingleP : Bool) : Option (K4RingBuffer τ × Nat) :=
  let prodHead := r.head
  let prodNext := prodHead + 1
  let prodIndx := r.sequenceIndex prodNext
  let pushed : K4RingBuffer τ :=
    { r with head := prodNext, tail := prodNext, ring := Function.update r.ring prodIndx data }
  if isSingleP then some (pushed, prodIndx)
  else if prodNext = r.tail then none
  else if r.tail ≠ prodHead then none
  else some (pushed, prodIndx)

/-- A ring that was initialised with the size `n`. -/
structure Sized (n : Nat) (r : K4RingBuffer τ) : Prop where
  two : 2 ≤ n
  int : n < 2147483648
  ringSize : r.ringSize = n
  indexMode : r.indexMode = if n &&& (n - 1) = 0 then 0 else 1

variable {n : Nat} {r : K4RingBuffer τ}

theorem init_sized (two : 2 ≤ n) (int : n < 2147483648) : Sized n (r.init n).1 := by
  have before : ((n : Int) - 1).toNat = n - 1 := by omega
  rw [init, if_neg (by omega)]
  refine ⟨two, int, rfl, ?_⟩
  dsimp only
  rw [Int.toNat_natCast, before]

theorem init_counters (r : K4RingBuffer τ) {len : Int} (size : 1 < len) :
    (r.init len).1.head = 0 ∧ (r.init len).1.tail = 0 := by
  rw [init, if_neg (by omega)]
  exact ⟨rfl, rfl⟩

/-- The mask and the remainder agree: sequence numbers are taken modulo the size. -/
theorem Sized.sequenceIndex (h : Sized n r) (sequence : Nat) :
    r.sequenceIndex sequence = sequence % n := by
  have two := h.two
  have int := h.int
  have mask : asUInt64 ((n : Int) - 1) = n - 1 := by
    rw [asUInt64_of_mem (by omega) (by omega)]
    omega
  rw [K4RingBuffer.sequenceIndex, h.indexMode, h.ringSize, mask, asUInt64_natCast (by omega)]
  by_cases power : n &&& (n - 1) = 0
  · obtain ⟨k, rfl⟩ := (Nat.and_sub_one_eq_zero_iff_isPowerOfTwo (by omega)).mp power
    rw [if_pos power, if_pos rfl]
    exact Nat.and_two_pow_sub_one_eq_mod sequence k
  · rw [if_neg power, if_neg (by decide)]

/-- Alone and on a ring without claims, both modes of `push` do the same. -/
theorem push_of_quiet (quiet : r.head = r.tail) (data : τ) (isSingleP : Bool) :
    r.push data isSingleP = some ({ r with
      head := r.tail + 1
      tail := r.tail + 1
      ring := Function.update r.ring (r.sequenceIndex (r.tail + 1)) data },
      r.sequenceIndex (r.tail + 1)) := by
  cases isSingleP with
  | true =>
      rw [push, quiet]
      rfl
  | false =>
      rw [push, quiet]
      rw [if_neg Bool.false_ne_true, if_neg (by omega), if_neg (not_not_intro rfl)]

/-- In multi-process mode a call on its own only returns on a ring without claims. -/
theorem quiet_of_push {data : τ} {pushed : K4RingBuffer τ × Nat}
    (h : r.push data false = some pushed) : r.head = r.tail := by
  by_contra claimed
  rw [push, if_neg Bool.false_ne_true] at h
  by_cases full : r.head + 1 = r.tail
  · rw [if_pos full] at h
    cases h
  · rw [if_neg full, if_pos (Ne.symm claimed)] at h
    cases h

end K4RingBuffer
end RazorCrypto.Mq
