import RazorCrypto.Mq.Endpoints
import RazorCrypto.Mq.Push
import RazorCrypto.ShmQueue.Geometry

/-!
# Sizes and slots of the two queues

Both queues round their size up to a power of two, and the message queue finds the slot of
a sequence number from what `init` wrote. Writers and readers have to agree on that slot
also where the 64-bit counter starts again at 0, so `push` is given here once more with its
counters as machine words. Below that point it is the `push` of unbounded counters.
-/

universe u v w

namespace RazorCrypto.Mq

open MachineInt BitSpread Transition ShmQueue

/-! ## Rounding up -/

namespace MqPub

theorem validateCapacity_eq {capacity : Nat} (small : capacity ≤ 2 ^ 32) :
    validateCapacity capacity = 2 ^ Nat.clog 2 (max capacity 16) := by
  have least : (if capacity < 16 then 16 else capacity) = max capacity 16 := by
    rw [max_def]
    split <;> split <;> omega
  have bounds : 16 ≤ max capacity 16 ∧ max capacity 16 ≤ 2 ^ 32 := by omega
  unfold validateCapacity
  rw [least]
  generalize max capacity 16 = c at bounds ⊢
  have nonzero : c - 1 ≠ 0 := by omega
  have word : c - 1 < 2 ^ 32 := by omega
  have highest : (c - 1).log2 < 32 := (Nat.log2_lt nonzero).mpr word
  have le : 2 ^ ((c - 1).log2 + 1) ≤ 2 ^ 32 := Nat.pow_le_pow_right Nat.two_pos highest
  have pos : 0 < 2 ^ ((c - 1).log2 + 1) := Nat.two_pow_pos _
  rw [clog_two_eq_log2_pred (by omega)]
  extract_lets c₀ n n₁ n₂ n₃ n₄ n₅
  have spread : Spread 32 n n₅ := Spread.one.double.double.double.double.double
  have full : n₅ = 2 ^ ((c - 1).log2 + 1) - 1 := spread.eq_two_pow_sub_one nonzero word
  have filled : ((n₅ : Nat) : Int) + 1 = ((2 ^ ((c - 1).log2 + 1) : Nat) : Int) := by
    omega
  rw [filled]
  exact asUInt64_natCast (by omega)

end MqPub

/-- The largest argument is a power of two itself. -/
theorem getNextpowerof2_upto {n : Nat} (pos : 0 < n) (le : n ≤ 2 ^ 63) :
    getNextpowerof2 n = 2 ^ Nat.clog 2 n := by
  obtain small | rfl := Nat.lt_or_eq_of_le le
  · exact getNextpowerof2_eq pos small
  · rw [Nat.clog_pow 2 63 Nat.one_lt_two]
    decide +kernel

/-! ## Slots -/

namespace K4RingBuffer

variable {τ : Type u} {n : Nat} {r pushed : K4RingBuffer τ} {slot : Nat} {data : τ}
variable {isSingleP : Bool}

/-- `push`, with `prod.head` and `prod.tail` as 64-bit words. -/
def push64 (r : K4RingBuffer τ) (data : τ) (isSingleP : Bool) :
    Option (K4RingBuffer τ × Nat) :=
  let prodHead := r.head
  let prodNext := asUInt64 (prodHead + 1)
  let prodIndx := r.sequenceIndex prodNext
  let pushed : K4RingBuffer τ :=
    { r with head := prodNext, tail := prodNext, ring := Function.update r.ring prodIndx data }
  if isSingleP then some (pushed, prodIndx)
  else if prodNext = r.tail then none
  else if r.tail ≠ prodHead then none
  else some (pushed, prodIndx)

/-- Before the counter wraps, the two models of `push` are one. -/
theorem push64_eq_push (word : r.head + 1 < 18446744073709551616) :
    r.push64 data isSingleP = r.push data isSingleP := by
  have next : asUInt64 ((r.head : Int) + 1) = r.head + 1 := asUInt64_natCast word
  rw [push64, next, push]

/-- Both modes write the slot of the next sequence number and return it. -/
theorem push64_eq_some (h : r.push64 data isSingleP = some (pushed, slot)) :
    slot = r.sequenceIndex (asUInt64 (r.head + 1)) ∧
      pushed = { r with
        head := asUInt64 (r.head + 1)
        tail := asUInt64 (r.head + 1)
        ring := Function.update r.ring slot data } := by
  unfold push64 at h
  dsimp only at h
  split at h
  · cases h
    exact ⟨rfl, rfl⟩
  · split at h
    · cases h
    · split at h
      · cases h
      · cases h
        exact ⟨rfl, rfl⟩

/-- A ring keeps its size as long as nothing but `init` writes these two members. -/
theorem Sized.of_members (two : 2 ≤ n) (int : n < 2147483648) (initial : K4RingBuffer τ)
    (ringSize : r.ringSize = (initial.init n).1.ringSize)
    (indexMode : r.indexMode = (initial.init n).1.indexMode) : Sized n r := by
  have sized : Sized n (initial.init n).1 := init_sized two int
  exact ⟨two, int, ringSize.trans sized.ringSize, indexMode.trans sized.indexMode⟩

theorem Sized.push64 (h : Sized n r) (returned : r.push64 data isSingleP = some (pushed, slot)) :
    slot = asUInt64 (r.head + 1) % n ∧ pushed.ring = Function.update r.ring slot data ∧
      pushed.getBySequence (asUInt64 (r.head + 1)) = data := by
  obtain ⟨index, rfl⟩ := push64_eq_some returned
  have slots := h.sequenceIndex (asUInt64 (r.head + 1))
  refine ⟨index.trans slots, rfl, ?_⟩
  subst index
  exact Function.update_self ..

end K4RingBuffer

/-! ## Slots of many producers -/

section Producers

variable {ι : Type u} {β : Type v} {P : Type w} {n : Nat}

/-- A producer at `pc` copies its message to the slot of its number. -/
def Pc.Placed (n : Nat) (pc : Pc ι β) : Prop :=
  ∀ data prodHead prodIndx stored, pc = .copy data prodHead prodIndx stored →
    prodIndx = (prodHead + 1) % n

theorem Pc.Placed.of_not_copy {pc : Pc ι β} (other : ∀ d h x w, pc ≠ .copy d h x w) :
    pc.Placed n := fun d h x w here => absurd here (other d h x w)

/-- The size of the ring and the slots of all copies in progress. -/
def State.Placed (n : Nat) (s : State ι β P) : Prop :=
  K4RingBuffer.Sized n s.ring ∧ ∀ p, (s.procs p).Placed n

variable [DecidableEq P] {s t : State ι β P} {e : Event ι β P} {p : P}

theorem State.Placed.goto (h : s.Placed n) {ring : K4RingBuffer (ι → β)} {pc : Pc ι β}
    (sized : K4RingBuffer.Sized n ring) (self : pc.Placed n) :
    (({ s with ring := ring } : State ι β P).goto p pc).Placed n := by
  refine ⟨sized, ?_⟩
  exact State.goto_forall (motive := fun _ pc => pc.Placed n) self (fun q _ => h.2 q)

variable [DecidableEq ι]

theorem State.Placed.step (h : s.Placed n) (taken : Step s e t) : t.Placed n := by
  have sized := h.1
  have counters : ∀ head tail (ring : Nat → ι → β),
      K4RingBuffer.Sized n { s.ring with head, tail, ring } :=
    fun _ _ _ => ⟨sized.two, sized.int, sized.ringSize, sized.indexMode⟩
  cases taken with
  | call _ _ | readHead _ | full _ _ | room _ _ | lost _ _ | copied _ _ | turn _ _ =>
      exact h.goto sized (.of_not_copy nofun)
  | wait _ _ => exact h
  | publish _ => exact h.goto (counters ..) (.of_not_copy nofun)
  | won here unchanged =>
      apply h.goto (counters ..)
      rintro data head index stored ⟨⟩
      exact sized.sequenceIndex _
  | storeWord here _ =>
      apply h.goto (counters ..)
      rintro data head index stored ⟨⟩
      exact h.2 _ _ _ _ _ here

/-- However the steps of the producers interleave, each message goes to the slot of its
sequence number. -/
theorem placed_of_run {ring : K4RingBuffer (ι → β)} {events : List (Event ι β P)}
    (sized : K4RingBuffer.Sized n ring) (run : Run Step (State.start ring) events s) :
    s.Placed n := by
  refine run.invariant (I := fun _ s => s.Placed n) ⟨sized, ?_⟩ fun h taken => h.step taken
  exact fun p => .of_not_copy nofun

end Producers

/-- Both functions round up to the least power of two, and whichever way `init` chose to find
slots, the slot of a sequence number is its remainder, for `push` in both modes, for all
producers at once and for readers. -/
theorem capacity_and_slots {τ : Type u} {ι : Type u} {β : Type v} {P : Type w} [DecidableEq ι]
    [DecidableEq P] :
    (∀ c, 1 ≤ c → c ≤ 2 ^ 32 →
      IsLeast { p | ∃ k, p = 2 ^ k ∧ max c 16 ≤ p } (MqPub.validateCapacity c)) ∧
    (∀ n, 1 ≤ n → n ≤ 2 ^ 63 → IsLeast { p | ∃ k, p = 2 ^ k ∧ n ≤ p } (getNextpowerof2 n)) ∧
    (∀ len : Nat, 2 ≤ len → len < 2 ^ 31 → ∀ initial r : K4RingBuffer τ,
      r.ringSize = (initial.init len).1.ringSize → r.indexMode = (initial.init len).1.indexMode →
      (∀ sequence, sequence < 2 ^ 64 →
        r.sequenceIndex sequence = sequence % len ∧
        r.getBySequence sequence = r.ring (sequence % len)) ∧
      ∀ data isSingleP pushed slot, r.push64 data isSingleP = some (pushed, slot) →
        slot = asUInt64 (r.head + 1) % len ∧
        pushed.ring = Function.update r.ring slot data ∧
        pushed.getBySequence (asUInt64 (r.head + 1)) = data) ∧
    (∀ len : Nat, 2 ≤ len → len < 2 ^ 31 → ∀ (initial : K4RingBuffer (ι → β))
      (events : List (Event ι β P)) (s : State ι β P),
      Run Step (State.start (initial.init len).1) events s →
      ∀ p data prodHead prodIndx stored, s.procs p = .copy data prodHead prodIndx stored →
        prodIndx = (prodHead + 1) % len) := by
  refine ⟨?_, ?_, ?_, ?_⟩
  · intro c pos le
    rw [MqPub.validateCapacity_eq le]
    exact isLeast_two_pow_clog _
  · intro n pos le
    rw [getNextpowerof2_upto pos le]
    exact isLeast_two_pow_clog _
  · intro len two int initial r ringSize indexMode
    have sized : r.Sized len := .of_members two int initial ringSize indexMode
    refine ⟨?_, ?_⟩
    · intro sequence _
      have slot := sized.sequenceIndex sequence
      exact ⟨slot, congrArg r.ring slot⟩
    · intro data isSingleP pushed slot returned
      exact sized.push64 returned
  · intro len two int initial events s run
    exact (placed_of_run (K4RingBuffer.init_sized two int) run).2

/-- A ring of three slots whose counters are about to wrap. -/
def lastOfThree : K4RingBuffer Nat :=
  { ((K4RingBuffer.zeroed 0).init 3).1 with
    head := 18446744073709551615
    tail := 18446744073709551615 }

theorem capacity_and_slots_lastOfThree :
    IsLeast { p | ∃ k, p = 2 ^ k ∧ max 100 16 ≤ p } (MqPub.validateCapacity 100) ∧
    IsLeast { p | ∃ k, p = 2 ^ k ∧ 5 ≤ p } (getNextpowerof2 5) ∧
    lastOfThree.sequenceIndex 4 = 4 % 3 ∧
    ∃ pushed, lastOfThree.push64 7 true = some (pushed, 0) ∧ pushed.getBySequence 0 = 7 := by
  obtain ⟨capacity, size, slots, -⟩ :=
    @capacity_and_slots Nat Unit Nat Unit inferInstance inferInstance
  have ring := slots 3 (by decide) (by decide) (K4RingBuffer.zeroed 0) lastOfThree rfl rfl
  have next : asUInt64 (lastOfThree.head + 1) = 0 := by decide +kernel
  have pushed : lastOfThree.push64 7 true =
      some ({ lastOfThree with head := 0, tail := 0, ring := Function.update (fun _ => 0) 0 7 },
        0) := by
    have slot : lastOfThree.sequenceIndex 0 = 0 := (ring.1 0 (by decide)).1
    rw [K4RingBuffer.push64, next, slot]
    rfl
  refine ⟨capacity 100 (by decide) (by decide), size 5 (by decide) (by decide), ?_, _, pushed, ?_⟩
  · exact (ring.1 4 (by decide)).1
  · have read := (ring.2 7 true _ 0 pushed).2.2
    rwa [next] at read

end RazorCrypto.Mq
