import Mathlib.Algebra.GroupWithZero.Nat
import RazorCrypto.Foundation.BitSpread
import RazorCrypto.ShmQueue.Queue

/-!
# Two processes and their sizes

Each process keeps its own `_size` and `_mask`. The creator writes its size into the header
of the shared memory, where nobody reads it. A process that finds the memory there uses the
size that it was given itself. The shared memory is taken to hold all slots that the two
processes use.

The two sizes are rounded up to powers of two. If the results differ, then the processes use
different slots for the message whose number is the smaller one of them.
-/

universe u

namespace RazorCrypto.ShmQueue

open MachineInt SlotRing Transition BitSpread

variable {τ : Type u}

/-- An `int` greater than zero. -/
structure PositiveInt where
  value : Int
  pos : 0 < value
  bounded : value < 2147483648

/-- `shared_data`. -/
structure SharedData (τ : Type u) where
  magicNumber : Int
  queueSize : Int
  head : Int
  tail : Int
  items : Nat → Item τ

def MAGIC_NUMBER : Int := 0x38335687

namespace SharedData

/-- The members of a `shared_memory_queue` that a constructor with this size leaves, for the
process that created `d` and for one that found it. -/
def opened (d : SharedData τ) (size : Int) : SharedMemoryQueue τ :=
  let size := asInt32 (getNextpowerof2 (asUInt64 size))
  { head := d.head, tail := d.tail, items := d.items, size := size, mask := size - 1 }

/-- What an operation of a process did to the shared memory. -/
def stored (d : SharedData τ) (q : SharedMemoryQueue τ) : SharedData τ :=
  { d with head := q.head, tail := q.tail, items := q.items }

/-- What the constructor stores in new memory. -/
def created (d : SharedData τ) (size : Int) : SharedData τ :=
  { magicNumber := MAGIC_NUMBER
    queueSize := asInt32 (getNextpowerof2 (asUInt64 size))
    tail := 0
    head := 0
    items := d.items }

end SharedData

/-- One process pushes and one pops, each with its own size, one operation at a time. -/
inductive SharedStep (pusher popper : Int) : SharedData τ → Event τ → SharedData τ → Prop
  | store {d buf len} (accepted : ((d.opened pusher).push buf len).tail ≠ d.tail) :
      SharedStep pusher popper d (.stored buf) (d.stored ((d.opened pusher).push buf len))
  | drop {d buf len} (full : ((d.opened pusher).push buf len).tail = d.tail) :
      SharedStep pusher popper d (.dropped buf) (d.stored ((d.opened pusher).push buf len))
  | pop {d fuel buf q} (returned : (d.opened popper).waitAndPop fuel = some (buf, q)) :
      SharedStep pusher popper d (.popped buf) (d.stored q)

/-! ## Rounding -/

theorem getNextpowerof2_eq {n : Nat} (pos : 0 < n) (small : n < 2 ^ 63) :
    getNextpowerof2 n = 2 ^ Nat.clog 2 n := by
  have pred : asUInt64 ((n : Int) - 1) = n - 1 := by
    rw [asUInt64_of_mem (by omega) (by omega)]
    omega
  unfold getNextpowerof2
  rw [pred]
  by_cases power : n.isPowerOfTwo
  · have none := (Nat.and_sub_one_eq_zero_iff_isPowerOfTwo pos.ne').mpr power
    rw [if_neg (not_not_intro none)]
    obtain ⟨k, rfl⟩ := power
    rw [Nat.clog_pow 2 k Nat.one_lt_two]
  · have some := mt (Nat.and_sub_one_eq_zero_iff_isPowerOfTwo pos.ne').mp power
    have highest : n.log2 < 63 := (Nat.log2_lt pos.ne').mpr small
    have le : 2 ^ (n.log2 + 1) ≤ 2 ^ 63 := Nat.pow_le_pow_right (by decide) highest
    have least : 0 < 2 ^ (n.log2 + 1) := Nat.two_pow_pos _
    rw [if_pos some, clog_two_of_not_isPowerOfTwo pos.ne' power]
    extract_lets n₁ n₂ n₃ n₄ n₅ n₆
    have spread : Spread 64 n n₆ := Spread.one.double.double.double.double.double.double
    have filled : ((n₆ : Nat) : Int) + 1 = ((2 ^ (n.log2 + 1) : Nat) : Int) := by
      rw [spread.eq_two_pow_sub_one pos.ne' (by omega)]
      omega
    rw [filled]
    exact asUInt64_natCast (by omega)

/-- The number of bits of a slot number, for a queue of this size. -/
def PositiveInt.bits (size : PositiveInt) : Nat := Nat.clog 2 size.value.toNat

namespace PositiveInt

variable (size : PositiveInt)

theorem bits_le : size.bits ≤ 31 := by
  have bounded := size.bounded
  exact Nat.clog_le_of_le_pow (by omega)

theorem bits_le_iff : size.bits ≤ 30 ↔ size.value ≤ 2 ^ 30 := by
  have pos := size.pos
  rw [bits, Nat.clog_le_iff_le_pow Nat.one_lt_two]
  omega

theorem rounded : getNextpowerof2 (asUInt64 size.value) = 2 ^ size.bits := by
  have pos := size.pos
  have bounded := size.bounded
  rw [asUInt64_of_mem (by omega) (by omega)]
  exact getNextpowerof2_eq (by omega) (by omega)

end PositiveInt

/-! ## The members of a process -/

namespace SharedData

variable {d : SharedData τ} (size : PositiveInt)

theorem opened_size (small : size.bits ≤ 30) :
    (d.opened size.value).size = ((2 ^ size.bits : Nat) : Int) := by
  have pos : 0 < 2 ^ size.bits := Nat.two_pow_pos _
  have le : 2 ^ size.bits ≤ 2 ^ 30 := Nat.pow_le_pow_right (by decide) small
  change asInt32 _ = _
  rw [size.rounded]
  exact asInt32_of_mem (by omega) (by omega)

/-- From a size above `2 ^ 30`, the rounded size overflows. -/
theorem opened_size_of_large (large : size.bits = 31) :
    (d.opened size.value).size = -2147483648 := by
  change asInt32 _ = _
  rw [size.rounded, large]
  exact asInt32_of_upper (by decide) (by decide)

/-- The mask does its work also where the size overflows. -/
theorem opened_slot (n : Nat) : (d.opened size.value).slot n = n % 2 ^ size.bits := by
  have mask : asUInt32 (d.opened size.value).mask = 2 ^ size.bits - 1 := by
    change asUInt32 ((d.opened size.value).size - 1) = _
    by_cases small : size.bits ≤ 30
    · have pos : 0 < 2 ^ size.bits := Nat.two_pow_pos _
      have le : 2 ^ size.bits ≤ 2 ^ 30 := Nat.pow_le_pow_right (by decide) small
      have cast : ((2 ^ size.bits : Nat) : Int) - 1 = ((2 ^ size.bits - 1 : Nat) : Int) := by omega
      rw [opened_size size small, cast, asUInt32_natCast, Nat.mod_eq_of_lt (by omega)]
    · have large : size.bits = 31 := by
        have le := size.bits_le
        omega
      rw [opened_size_of_large size large, large]
      decide +kernel
  have divides : 2 ^ size.bits ∣ 4294967296 :=
    Nat.pow_dvd_pow 2 (show size.bits ≤ 32 by have := size.bits_le; omega)
  rw [SharedMemoryQueue.slot, mask, asUInt32_natCast, Nat.and_two_pow_sub_one_eq_mod,
    Nat.mod_mod_of_dvd _ divides]

/-- A push leaves the members of the process alone. -/
theorem opened_stored_push (size : Int) (buf : τ) (len : Int) :
    (d.stored ((d.opened size).push buf len)).opened size = (d.opened size).push buf len := by
  unfold SharedMemoryQueue.push
  dsimp only
  split <;> rfl

/-- With nothing pending, a message is stored. -/
theorem opened_push (small : size.bits ≤ 30) {n : Nat} (head : d.head = n) (tail : d.tail = n)
    (few : n + 1 < 2147483648) (buf : τ) (len : Int) :
    (d.opened size.value).push buf len =
      { d.opened size.value with
        items := Function.update d.items (n % 2 ^ size.bits) ⟨len, buf⟩
        tail := (n + 1 : Nat) } := by
  have pos : 0 < 2 ^ size.bits := Nat.two_pow_pos _
  have room : ¬ (d.opened size.value).size ≤ asInt32 (d.tail - d.head) := by
    rw [opened_size size small, head, tail, asInt32_of_mem (by omega) (by omega)]
    omega
  have next : asInt32 (d.tail + 1) = (n + 1 : Nat) := by
    rw [tail, asInt32_of_mem (by omega) (by omega)]
    rfl
  have slot : (d.opened size.value).slot d.tail = n % 2 ^ size.bits := by
    rw [tail, opened_slot]
  rw [SharedMemoryQueue.push]
  refine (if_neg room).trans ?_
  rw [← slot, ← next]
  rfl

/-- A single pending message is popped. -/
theorem opened_pop {n : Nat} (head : d.head = n) (tail : d.tail = (n + 1 : Nat))
    (few : n + 1 < 2147483648) :
    (d.opened size.value).waitAndPop 1 =
      some ((d.items (n % 2 ^ size.bits)).buf,
        { d.opened size.value with head := (n + 1 : Nat) }) := by
  have pending : (d.opened size.value).head < (d.opened size.value).tail := by
    change d.head < d.tail
    omega
  have next : asInt32 (d.head + 1) = (n + 1 : Nat) := by
    rw [head, asInt32_of_mem (by omega) (by omega)]
    rfl
  have slot : (d.opened size.value).slot d.head = n % 2 ^ size.bits := by
    rw [head, opened_slot]
  rw [SharedMemoryQueue.waitAndPop_of_lt pending, ← slot, ← next]
  rfl

end SharedData

/-! ## Runs -/

section Runs

variable {pusher popper : PositiveInt} {d d' : SharedData τ} {events : List (Event τ)}

theorem stores_turn (events : List (Event τ)) (pushed popped : τ) :
    stores (events ++ [.stored pushed, .popped popped]) = stores events ++ [pushed] :=
  List.filterMap_append ..

theorem pops_turn (events : List (Event τ)) (pushed popped : τ) :
    pops (events ++ [.stored pushed, .popped popped]) = pops events ++ [popped] :=
  List.filterMap_append ..

/-- One message is pushed and one is popped. The latter is what its slot holds. -/
theorem shared_turn (popper : PositiveInt) (small : pusher.bits ≤ 30) {n : Nat}
    (head : d.head = n) (tail : d.tail = n) (few : n + 1 < 2147483648) (buf : τ) :
    ∃ d', Run (SharedStep pusher.value popper.value) d
        [.stored buf, .popped (Function.update d.items (n % 2 ^ pusher.bits) ⟨0, buf⟩
          (n % 2 ^ popper.bits)).buf] d' ∧
      d'.head = (n + 1 : Nat) ∧ d'.tail = (n + 1 : Nat) := by
  have pushed := SharedData.opened_push pusher small head tail few buf 0
  have accepted : ((d.opened pusher.value).push buf 0).tail ≠ d.tail := by
    rw [pushed, tail]
    dsimp only
    omega
  have store : Run (SharedStep pusher.value popper.value) d _ _ := .single (.store accepted)
  rw [pushed] at store
  have popped := SharedData.opened_pop popper (d := d.stored
    { d.opened pusher.value with
      items := Function.update d.items (n % 2 ^ pusher.bits) ⟨0, buf⟩
      tail := (n + 1 : Nat) }) head rfl few
  exact ⟨_, store.snoc (.pop popped), rfl, rfl⟩

/-- Up to the smaller size, both processes use the same slots. -/
theorem shared_turns (popper : PositiveInt) (small : pusher.bits ≤ 30) (head : d.head = 0)
    (tail : d.tail = 0) (buf : τ) (n : Nat) (upto : n ≤ 2 ^ pusher.bits)
    (upto' : n ≤ 2 ^ popper.bits) :
    ∃ events d', Run (SharedStep pusher.value popper.value) d events d' ∧
      d'.head = n ∧ d'.tail = n ∧
      stores events = List.replicate n buf ∧ pops events = List.replicate n buf := by
  induction n with
  | zero => exact ⟨[], d, .refl, head, tail, rfl, rfl⟩
  | succ n ih =>
      obtain ⟨events, d₁, run, head, tail, stores_eq, pops_eq⟩ := ih (by omega) (by omega)
      have le : 2 ^ pusher.bits ≤ 2 ^ 30 := Nat.pow_le_pow_right (by decide) small
      obtain ⟨d₂, turn, head', tail'⟩ :=
        shared_turn popper small head tail (by omega) buf
      have same : n % 2 ^ pusher.bits = n % 2 ^ popper.bits := by
        rw [Nat.mod_eq_of_lt (by omega), Nat.mod_eq_of_lt (by omega)]
      rw [same, Function.update_self] at turn
      refine ⟨_, d₂, run.trans turn, head', tail', ?_, ?_⟩
      · rw [stores_turn, stores_eq, List.replicate_succ']
      · rw [pops_turn, pops_eq, List.replicate_succ']

/-- The message whose number is the smaller size is popped from another slot than the one it
was stored in. -/
theorem misread [Nontrivial τ] (small : pusher.bits ≤ 30) (differ : pusher.bits ≠ popper.bits)
    (head : d.head = 0) (tail : d.tail = 0) :
    ∃ events d', Run (SharedStep pusher.value popper.value) d events d' ∧
      (stores events).length < 2147483648 ∧ ¬ pops events <+: stores events := by
  have le : 2 ^ pusher.bits ≤ 2 ^ 30 := Nat.pow_le_pow_right (by decide) small
  have pos : 0 < 2 ^ pusher.bits ∧ 0 < 2 ^ popper.bits :=
    ⟨Nat.two_pow_pos _, Nat.two_pow_pos _⟩
  have sizes : 2 ^ pusher.bits ≠ 2 ^ popper.bits := fun same =>
    differ (Nat.pow_right_injective (Nat.le_refl 2) same)
  have slots : ∀ n, n = min (2 ^ pusher.bits) (2 ^ popper.bits) →
      n % 2 ^ popper.bits ≠ n % 2 ^ pusher.bits := by
    rintro n rfl
    obtain lt | lt := Nat.lt_or_gt_of_ne sizes
    · rw [Nat.min_eq_left lt.le, Nat.mod_self, Nat.mod_eq_of_lt lt]
      exact pos.1.ne'
    · rw [Nat.min_eq_right lt.le, Nat.mod_self, Nat.mod_eq_of_lt lt]
      exact pos.2.ne
  obtain ⟨buf⟩ : Nonempty τ := inferInstance
  obtain ⟨events, d₁, run, head, tail, stores_eq, pops_eq⟩ := shared_turns popper small
    head tail buf _ (Nat.min_le_left ..) (Nat.min_le_right ..)
  -- The last message differs from what the other slot holds.
  obtain ⟨last, new⟩ := exists_ne
    (d₁.items (min (2 ^ pusher.bits) (2 ^ popper.bits) % 2 ^ popper.bits)).buf
  obtain ⟨d₂, turn, -, -⟩ := shared_turn popper small head tail (by omega) last
  rw [Function.update_of_ne (slots _ rfl)] at turn
  refine ⟨_, d₂, run.trans turn, ?_, ?_⟩
  · rw [stores_turn, stores_eq, List.length_append, List.length_replicate, List.length_singleton]
    omega
  · intro order
    rw [stores_turn, pops_turn, stores_eq, pops_eq, List.prefix_append_right_inj] at order
    exact new (List.cons.inj (order.eq_of_length rfl)).1.symm

/-- With the same rounded size, the two processes are the two ends of one queue. -/
theorem opened_run (small : pusher.bits ≤ 30) (same : pusher.bits = popper.bits) (creator : Int)
    (run : Run (SharedStep pusher.value popper.value) (d.created creator) events d') :
    Run Step (SharedMemoryQueue.construct d.items (2 ^ pusher.bits)) events
      (d'.opened pusher.value) := by
  have popper_opened : ∀ d : SharedData τ, d.opened popper.value = d.opened pusher.value := by
    intro d
    rw [SharedData.opened, SharedData.opened, popper.rounded, pusher.rounded, same]
  refine run.invariant (I := fun events d' => Run Step
    (SharedMemoryQueue.construct d.items (2 ^ pusher.bits)) events (d'.opened pusher.value)) ?_ ?_
  · have rounded : getNextpowerof2 (asUInt64 (2 ^ pusher.bits)) =
        getNextpowerof2 (asUInt64 pusher.value) := by
      have cast : (2 : Int) ^ pusher.bits = ((2 ^ pusher.bits : Nat) : Int) :=
        (Nat.cast_pow 2 pusher.bits).symm
      have le : 2 ^ pusher.bits ≤ 2 ^ 30 := Nat.pow_le_pow_right (by decide) small
      rw [pusher.rounded, cast, asUInt64_natCast (by omega),
        getNextpowerof2_eq (Nat.two_pow_pos _) (by omega), Nat.clog_pow 2 _ Nat.one_lt_two]
    rw [SharedMemoryQueue.construct, rounded]
    exact .refl
  · intro es d₁ e d₂ before taken
    refine before.snoc ?_
    cases taken with
    | @store buf len accepted =>
        rw [SharedData.opened_stored_push]
        exact .store accepted
    | @drop buf len full =>
        rw [SharedData.opened_stored_push]
        exact .drop full
    | @pop fuel buf q returned =>
        rw [popper_opened] at returned
        obtain ⟨-, -, rfl⟩ := SharedMemoryQueue.waitAndPop_eq_some returned
        exact .pop returned

/-- Above `2 ^ 30`, the size overflows and each message is dropped. -/
theorem nothing_stored (large : pusher.bits = 31) (head : d.head = 0) (tail : d.tail = 0)
    (run : Run (SharedStep pusher.value popper.value) d events d') : pops events = [] := by
  refine (run.invariant (I := fun events d' => d'.head = d'.tail ∧ pops events = [])
    ⟨head.trans tail.symm, rfl⟩ ?_).2
  rintro es d₁ e d₂ ⟨level, none⟩ taken
  have push_eq : ∀ buf len, (d₁.opened pusher.value).push buf len = d₁.opened pusher.value := by
    intro buf len
    refine if_pos ?_
    rw [SharedData.opened_size_of_large pusher large]
    exact (asInt32_bounds _).1
  cases taken with
  | @store buf len accepted => exact absurd (congrArg (·.tail) (push_eq buf len)) accepted
  | @drop buf len full =>
      rw [push_eq]
      exact ⟨level, (List.filterMap_append ..).trans (congrArg (· ++ []) none)⟩
  | pop returned =>
      have lt := (SharedMemoryQueue.waitAndPop_eq_some returned).1
      change d₁.head < d₁.tail at lt
      omega

end Runs

/-- In each run of fewer than `2 ^ 31` messages, each message that is popped is the oldest one
that was accepted and not popped before. -/
def Intact (pusher popper : Int) (d : SharedData τ) : Prop :=
  ∀ events d', Run (SharedStep pusher popper) d events d' →
    (stores events).length < 2147483648 → pops events <+: stores events

/-- New memory, filled with zeros. -/
def zeroed : SharedData Nat := ⟨0, 0, 0, 0, fun _ => ⟨0, 0⟩⟩

end RazorCrypto.ShmQueue
