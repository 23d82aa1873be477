import RazorCrypto.Mq.RingBuffer

/-!
# Publishers and subscribers of a message queue

`MQ_Pub` and `MQ_Sub` share one ring for each message type. The party that creates the
shared memory initialises the ring with its own capacity. A subscriber that finds the
shared memory decides from the ring's sequence number whether to initialise it once more.
-/

universe u

namespace RazorCrypto.Mq

open MachineInt

variable {τ : Type u}

/-- Shared memory as the system hands it out: all bytes are zero. -/
def K4RingBuffer.zeroed (zero : τ) : K4RingBuffer τ := ⟨0, 0, 0, 0, fun _ => zero⟩

/-- `SharedMemory::open_or_create`: the mapped ring and the final value of `create`. -/
def openOrCreate (zero : τ) (memory : Option (K4RingBuffer τ)) (create : Bool) :
    K4RingBuffer τ × Bool :=
  if create then (.zeroed zero, true)
  else match memory with
    | none => (.zeroed zero, true)
    | some ring => (ring, false)

/-- `MQ_Pub`. -/
structure MqPub where
  capacity : Nat

namespace MqPub

/-- `validate_capacity`: up to the next power of two. -/
def validateCapacity (capacity : Nat) : Nat :=
  let capacity := if capacity < 16 then 16 else capacity
  let capacity := capacity - 1
  let capacity := capacity ||| capacity >>> 1
  let capacity := capacity ||| capacity >>> 2
  let capacity := capacity ||| capacity >>> 4
  let capacity := capacity ||| capacity >>> 8
  let capacity := capacity ||| capacity >>> 16
  asUInt64 (capacity + 1)

/-- The constructor with its `initialize`: the ring after it and the publisher. -/
def construct (zero : τ) (memory : Option (K4RingBuffer τ)) (capacity : Nat)
    (isCreator : Bool) : K4RingBuffer τ × MqPub :=
  let capacity := validateCapacity capacity
  let opened := openOrCreate zero memory isCreator
  (if opened.2 then (opened.1.init (asInt32 capacity)).1 else opened.1, ⟨capacity⟩)

/-- A publisher that creates the shared memory initialises the ring. -/
theorem construct_of_created {zero : τ} {memory : Option (K4RingBuffer τ)} {capacity : Nat}
    {isCreator : Bool} (created : (openOrCreate zero memory isCreator).2 = true) :
    (construct zero memory capacity isCreator).1 =
      ((K4RingBuffer.zeroed zero).init (asInt32 (validateCapacity capacity))).1 := by
  have zeroed : (openOrCreate zero memory isCreator).1 = .zeroed zero := by
    unfold openOrCreate at created ⊢
    cases isCreator with
    | true => rfl
    | false =>
        cases memory with
        | none => rfl
        | some ring => cases created
  rw [← zeroed]
  unfold construct
  exact if_pos created

end MqPub

/-- `MQ_Sub`. -/
structure MqSub where
  capacity : Nat
  currentIndex : Nat

namespace MqSub

/-- `validate_capacity`. -/
def validateCapacity (capacity : Nat) : Nat := if capacity < 16 then 16 else capacity

/-- `is_shared_memory_initialized`. -/
def isSharedMemoryInitialized (ring : K4RingBuffer τ) : Bool := ring.getCurSequence != 0

/-- The constructor with its `initialize`: the ring after it and the subscriber, nothing if
it throws. -/
def construct (zero : τ) (memory : Option (K4RingBuffer τ)) (capacity : Nat)
    (requireExisting startFromBeginning : Bool) : Option (K4RingBuffer τ × MqSub) :=
  let capacity := validateCapacity capacity
  if requireExisting && memory.isNone then none
  else
    let ring := (openOrCreate zero memory false).1
    if isSharedMemoryInitialized ring then
      some (ring, ⟨capacity, if startFromBeginning then 0 else ring.getCurSequence⟩)
    else some ((ring.init (asInt32 capacity)).1, ⟨capacity, 0⟩)

/-- `try_read_new`: the message it hands out, if any, and the subscriber after it. -/
def tryReadNew (sub : MqSub) (ring : K4RingBuffer τ) : Option τ × MqSub :=
  let current := ring.getCurSequence
  if sub.currentIndex < current then
    (some (ring.getBySequence (sub.currentIndex + 1)),
      { sub with currentIndex := sub.currentIndex + 1 })
  else (none, sub)

variable (zero : τ) {ring ring' : K4RingBuffer τ} (capacity : Nat) {sub : MqSub}
variable (requireExisting startFromBeginning : Bool)

/-- On a ring with a published message nothing is initialised. -/
theorem construct_of_published (published : ring.tail ≠ 0) :
    construct zero (some ring) capacity requireExisting startFromBeginning =
      some (ring, ⟨validateCapacity capacity, if startFromBeginning then 0 else ring.tail⟩) := by
  have initialized : isSharedMemoryInitialized ring = true := bne_iff_ne.mpr published
  simp [construct, openOrCreate, initialized, K4RingBuffer.getCurSequence]

/-- On a ring without one, the subscriber initialises it with its own capacity. -/
theorem construct_of_unpublished (unpublished : ring.tail = 0) :
    construct zero (some ring) capacity requireExisting startFromBeginning =
      some ((ring.init (asInt32 (validateCapacity capacity))).1,
        ⟨validateCapacity capacity, 0⟩) := by
  have uninitialized : isSharedMemoryInitialized ring = false := bne_eq_false_iff_eq.mpr unpublished
  simp [construct, openOrCreate, uninitialized]

/-- A new subscriber starts at a sequence number that is published. -/
theorem construct_currentIndex_le {zero : τ} {capacity : Nat}
    {requireExisting startFromBeginning : Bool}
    (attached : construct zero (some ring) capacity requireExisting startFromBeginning =
      some (ring', sub)) : sub.currentIndex ≤ ring'.tail := by
  by_cases published : ring.tail = 0
  · rw [construct_of_unpublished _ _ _ _ published] at attached
    cases attached
    exact Nat.zero_le _
  · rw [construct_of_published _ _ _ _ published] at attached
    cases attached
    cases startFromBeginning with
    | true => exact Nat.zero_le _
    | false => exact Nat.le_refl _

end MqSub
end RazorCrypto.Mq
