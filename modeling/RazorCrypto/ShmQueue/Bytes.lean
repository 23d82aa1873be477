import RazorCrypto.Foundation.FlatMemory
import RazorCrypto.ShmQueue.Geometry

/-!
# The bytes of the queue

Here the items are the bytes of the shared memory from the first item on: records of 148
bytes, the first four for `len` and the others for `buf`. `push` copies as many bytes as its
caller says, and nothing compares this number with the 144 bytes of `buf`. A longer message
runs over the next record, or over what lies behind the last one.
-/

namespace RazorCrypto.ShmQueue

open MachineInt SlotRing Transition FlatMemory

/-- `sizeof(item_t)`. -/
def sizeofItem : Nat := 148

/-- `sizeof(int)`: the offset of `buf` in an item. -/
def sizeofInt : Nat := 4

/-- The bytes of an `int`. -/
def intBytes (value : Int) (i : Nat) : UInt8 := UInt8.ofNat (asUInt32 value / 256 ^ i)

/-- `shared_memory_queue` over the bytes from `items` on. -/
structure ByteQueue where
  head : Int
  tail : Int
  bytes : Nat → UInt8
  size : Int
  mask : Int

namespace ByteQueue

/-- The constructor, for the process that creates the shared memory. -/
def construct (bytes : Nat → UInt8) (size : Int) : ByteQueue :=
  let size := asInt32 (getNextpowerof2 (asUInt64 size))
  { head := 0, tail := 0, bytes := bytes, size := size, mask := size - 1 }

/-- The slot of a counter: `index & _mask`. -/
def slot (q : ByteQueue) (index : Int) : Nat := asUInt32 index &&& asUInt32 q.mask

/-- `push`, with the bytes that `buf` points to. -/
def push (q : ByteQueue) (buf : Nat → UInt8) (len : Int) : ByteQueue :=
  let curHead := q.head
  let curTail := q.tail
  if q.size ≤ asInt32 (curTail - curHead) then q
  else
    let item := sizeofItem * q.slot curTail
    { q with
      bytes := copy (copy q.bytes item (intBytes len) sizeofInt) (item + sizeofInt) buf
        (asUInt64 len)
      tail := asInt32 (curTail + 1) }

/-- `wait_and_pop`, where it returns: what it does to the queue. -/
def popped (q : ByteQueue) : ByteQueue := { q with head := asInt32 (q.head + 1) }

/-- The byte at address `i` is one of the item in slot `r`. -/
def InItem (r i : Nat) : Prop := sizeofItem * r ≤ i ∧ i < sizeofItem * (r + 1)

instance (r i : Nat) : Decidable (InItem r i) := inferInstanceAs (Decidable (_ ∧ _))

/-- Items that were stored and not yet popped, counted from the oldest. -/
def Pending (q : ByteQueue) (n : Nat) : Prop := (n : Int) < asInt32 (q.tail - q.head)

instance (q : ByteQueue) (n : Nat) : Decidable (q.Pending n) :=
  inferInstanceAs (Decidable (_ < _))

/-- The slot of a pending item. -/
def pendingSlot (q : ByteQueue) (n : Nat) : Nat := q.slot (asInt32 (q.head + n))

/-- The counters and the geometry without the items. -/
def counters (q : ByteQueue) : SharedMemoryQueue Unit :=
  { head := q.head, tail := q.tail, items := fun _ => ⟨0, ()⟩, size := q.size, mask := q.mask }

end ByteQueue

/-- `push` and `wait_and_pop`, one at a time. -/
inductive ByteStep : ByteQueue → Event Unit → ByteQueue → Prop
  | store {q buf len} (accepted : (q.push buf len).tail ≠ q.tail) :
      ByteStep q (.stored ()) (q.push buf len)
  | drop {q buf len} (full : (q.push buf len).tail = q.tail) :
      ByteStep q (.dropped ()) (q.push buf len)
  | pop {q} (pending : q.head < q.tail) : ByteStep q (.popped ()) q.popped

/-! ## The counters do not depend on the bytes -/

/-- Without contents, a queue is given by its counters and its geometry. -/
theorem Represents.of_counters {k : Nat} {stored popped : List Unit}
    {q q' : SharedMemoryQueue Unit} (h : Represents k stored popped q) (head : q'.head = q.head)
    (tail : q'.tail = q.tail) (size : q'.size = q.size) (mask : q'.mask = q.mask) :
    Represents k stored popped q' :=
  ⟨h.small, size.trans h.size, mask.trans h.mask, head.trans h.head, tail.trans h.tail, h.taken,
    h.room, fun _ _ _ => rfl⟩

namespace ByteQueue

variable {q q' : ByteQueue} {size : PositiveInt} {memory : Nat → UInt8}
variable {events : List (Event Unit)} {k : Nat} {stored popped : List Unit}
variable {buf : Nat → UInt8} {len : Int}

theorem push_counters (q : ByteQueue) (buf : Nat → UInt8) (len : Int) :
    (q.push buf len).head = (q.counters.push () len).head ∧
    (q.push buf len).tail = (q.counters.push () len).tail ∧
    (q.push buf len).size = (q.counters.push () len).size ∧
    (q.push buf len).mask = (q.counters.push () len).mask := by
  by_cases full : q.size ≤ asInt32 (q.tail - q.head)
  · simp [push, SharedMemoryQueue.push, counters, full]
  · simp [push, SharedMemoryQueue.push, counters, full]

theorem push_head (q : ByteQueue) (buf : Nat → UInt8) (len : Int) :
    (q.push buf len).head = q.head := by
  rw [push]
  split <;> rfl

theorem push_size (q : ByteQueue) (buf : Nat → UInt8) (len : Int) :
    (q.push buf len).size = q.size := by
  rw [push]
  split <;> rfl

theorem construct_represents (small : size.bits ≤ 30) :
    Represents size.bits [] [] (construct memory size.value).counters := by
  have fresh : Represents size.bits [] [] (SharedMemoryQueue.construct _ (2 ^ size.bits)) :=
    ShmQueue.construct_represents (τ := Unit) small fun _ => ⟨0, ()⟩
  have rounded : (construct memory size.value).size = (2 : Int) ^ size.bits := by
    have opened := SharedData.opened_size (τ := Unit) (d := ⟨0, 0, 0, 0, fun _ => ⟨0, ()⟩⟩)
      size small
    exact opened.trans (Nat.cast_pow 2 _)
  have same : (construct memory size.value).size =
      (SharedMemoryQueue.construct (fun _ => ⟨0, ()⟩) (2 ^ size.bits) :
        SharedMemoryQueue Unit).size :=
    rounded.trans fresh.size.symm
  exact fresh.of_counters rfl rfl same (congrArg (· - 1) same)

/-- The counters of a run are those of a queue that stores and pops the same. -/
theorem run_represents (small : size.bits ≤ 30)
    (run : Run ByteStep (construct memory size.value) events q) :
    Represents size.bits (stores events) (pops events) q.counters := by
  refine run.invariant (I := fun events (q : ByteQueue) => Represents size.bits (stores events)
    (pops events) q.counters) (construct_represents small) ?_
  intro events q e q' represented taken
  have stores_eq : stores (events ++ [e]) = stores events ++ stores [e] := List.filterMap_append ..
  have pops_eq : pops (events ++ [e]) = pops events ++ pops [e] := List.filterMap_append ..
  rw [stores_eq, pops_eq]
  cases taken with
  | @store buf len accepted =>
      obtain ⟨head, tail, size, mask⟩ := q.push_counters buf len
      rw [tail] at accepted
      exact (represented.step (.store accepted)).1.of_counters head tail size mask
  | @drop buf len full =>
      obtain ⟨head, tail, size, mask⟩ := q.push_counters buf len
      rw [tail] at full
      exact (represented.step (.drop full)).1.of_counters head tail size mask
  | pop pending =>
      have returned := SharedMemoryQueue.waitAndPop_of_lt (q := q.counters) pending
      exact (represented.step (.pop returned)).1.of_counters rfl rfl rfl rfl

/-- No operation changes the size. -/
theorem run_size (run : Run ByteStep (construct memory size.value) events q) :
    q.size = (construct memory size.value).size := by
  refine run.invariant
    (I := fun _ (q : ByteQueue) => q.size = (construct memory size.value).size) rfl ?_
  intro events q e q' same taken
  cases taken with
  | store => rw [push_size, same]
  | drop => rw [push_size, same]
  | pop => exact same

/-! ## What `push` leaves alone -/

/-- The items that are pending have other slots than the one that is written. -/
theorem pendingSlot_ne (represented : Represents k stored popped q.counters)
    (free : stored.length < popped.length + 2 ^ k) {n : Nat} (pending : q.Pending n) :
    q.pendingSlot n ≠ q.slot q.tail := by
  have pow := represented.pow_le
  have le := represented.length_le
  have head : q.head = asInt32 popped.length := represented.head
  have tail : q.tail = asInt32 stored.length := represented.tail
  have count : asInt32 (q.tail - q.head) = stored.length - popped.length := by
    rw [head, tail, asInt32_sub_asInt32]
    exact asInt32_of_mem (by omega) (by omega)
  rw [Pending, count] at pending
  have written : q.slot q.tail = stored.length % 2 ^ k := by
    rw [tail]
    exact represented.slot _
  have read : q.pendingSlot n = (popped.length + n) % 2 ^ k := by
    rw [pendingSlot, head, asInt32_add_asInt32, ← Nat.cast_add]
    exact represented.slot _
  rw [written, read]
  exact SlotRing.mod_ne (by omega) (by omega)

/-- The bytes of one item are not those of another. -/
theorem not_inItem {r r' i : Nat} (ne : r' ≠ r) (inside : InItem r' i) : ¬ InItem r i := by
  obtain ⟨low, high⟩ := inside
  rintro ⟨low', high'⟩
  obtain before | after := Nat.lt_or_gt_of_ne ne
  · have apart : sizeofItem * (r' + 1) ≤ sizeofItem * r := Nat.mul_le_mul_left _ before
    omega
  · have apart : sizeofItem * (r + 1) ≤ sizeofItem * r' := Nat.mul_le_mul_left _ after
    omega

/-- Outside of its own item, an accepted message changes nothing exactly if its bytes from
number 144 on are already there. -/
theorem push_bytes_iff (accepted : (q.push buf len).tail ≠ q.tail) (nonneg : 0 ≤ len)
    (int : len < 2147483648) :
    (∀ i, ¬ InItem (q.slot q.tail) i → (q.push buf len).bytes i = q.bytes i) ↔
      ∀ j : Nat, 144 ≤ j → (j : Int) < len →
        buf j = q.bytes (sizeofItem * q.slot q.tail + sizeofInt + j) := by
  have room : ¬ q.size ≤ asInt32 (q.tail - q.head) := by
    intro full
    exact accepted (by rw [push, if_pos full])
  generalize first : sizeofItem * q.slot q.tail = item
  have next : sizeofItem * (q.slot q.tail + 1) = item + 148 := by
    rw [Nat.mul_add, first]
    rfl
  have outside : ∀ i, ¬ InItem (q.slot q.tail) i ↔ i < item ∨ item + 148 ≤ i := by
    intro i
    rw [InItem, first, next]
    omega
  have bytes : (q.push buf len).bytes =
      copy (copy q.bytes item (intBytes len) 4) (item + 4) buf len.toNat := by
    rw [push, if_neg room, first, asUInt64_of_mem nonneg (by omega)]
    rfl
  -- the field `len` lies inside of the item
  have field : ∀ i, i < item ∨ item + 148 ≤ i → copy q.bytes item (intBytes len) 4 i = q.bytes i :=
    fun i out => copy_of_outside (by omega)
  have frame : (∀ i, i < item ∨ item + 148 ≤ i →
      copy (copy q.bytes item (intBytes len) 4) (item + 4) buf len.toNat i =
        copy q.bytes item (intBytes len) 4 i) ↔
      ∀ j, j < len.toNat → item + 148 ≤ item + 4 + j →
        buf j = copy q.bytes item (intBytes len) 4 (item + 4 + j) :=
    copy_frame_iff (Nat.le_add_right item 4)
  rw [bytes]
  constructor
  · intro same j beyond copied
    have unchanged :=
      frame.mp (fun i out => (same i ((outside i).mpr out)).trans (field i out).symm)
        j (by omega) (by omega)
    rwa [field _ (Or.inr (by omega))] at unchanged
  · intro same i out
    have unchanged := frame.mpr (fun j copied beyond => ?_) i ((outside i).mp out)
    · exact unchanged.trans (field i ((outside i).mp out))
    · rw [field _ (Or.inr beyond)]
      exact same j (by omega) (by omega)

/-- A size above `2 ^ 30` overflows, and then nothing is accepted. -/
theorem small_of_accepted (run : Run ByteStep (construct memory size.value) events q)
    (accepted : (q.push buf len).tail ≠ q.tail) : size.bits ≤ 30 := by
  by_contra large
  have overflows : size.bits = 31 := by
    have le := size.bits_le
    omega
  have opened : (construct memory size.value).size = -2147483648 :=
    SharedData.opened_size_of_large (τ := Unit) (d := ⟨0, 0, 0, 0, fun _ => ⟨0, ()⟩⟩) size overflows
  have full : q.size ≤ asInt32 (q.tail - q.head) := by
    rw [run_size run, opened]
    exact (asInt32_bounds _).1
  exact accepted (by rw [push, if_pos full])

/-- In each state that operations lead to: an accepted message leaves the bytes outside of its
item, `head` and all pending items alone exactly if its bytes from number 144 on are already
there. -/
theorem push_frame_iff (memory : Nat → UInt8) (size : PositiveInt) {events : List (Event Unit)}
    {q : ByteQueue} (run : Run ByteStep (construct memory size.value) events q)
    {buf : Nat → UInt8} {len : Int} (accepted : (q.push buf len).tail ≠ q.tail)
    (nonneg : 0 ≤ len) (int : len < 2147483648) :
    ((∀ i, ¬ InItem (q.slot q.tail) i → (q.push buf len).bytes i = q.bytes i) ∧
      (q.push buf len).head = q.head ∧
      ∀ n, q.Pending n → ∀ i, InItem (q.pendingSlot n) i →
        (q.push buf len).bytes i = q.bytes i) ↔
    ∀ j : Nat, 144 ≤ j → (j : Int) < len →
      buf j = q.bytes (sizeofItem * q.slot q.tail + sizeofInt + j) := by
  have represented := run_represents (small_of_accepted run accepted) run
  have free : (stores events).length < (pops events).length + 2 ^ size.bits := by
    apply (represented.push_tail_ne_iff () len).mp
    rwa [← (q.push_counters buf len).2.1]
  rw [← push_bytes_iff accepted nonneg int]
  constructor
  · rintro ⟨frame, -, -⟩
    exact frame
  · intro frame
    refine ⟨frame, q.push_head buf len, ?_⟩
    intro n pending i inside
    exact frame i (not_inItem (pendingSlot_ne represented free pending) inside)

/-- A queue of two slots in zeroed memory. -/
def twoItems : ByteQueue := construct (fun _ => 0) 2

theorem twoItems_accepts (buf : Nat → UInt8) (len : Int) :
    (twoItems.push buf len).tail ≠ twoItems.tail := by
  have room : ¬ twoItems.size ≤ asInt32 (twoItems.tail - twoItems.head) := by decide +kernel
  have next : asInt32 (twoItems.tail + 1) ≠ twoItems.tail := by decide +kernel
  rwa [push, if_neg room]

/-- Four bytes into the first of two slots leave the second one alone. -/
theorem push_frame_two : (twoItems.push (fun _ => 7) 4).bytes 148 = twoItems.bytes 148 := by
  have frame := push_frame_iff (fun _ => 0) ⟨2, by decide, by decide⟩ .refl
    (twoItems_accepts (fun _ => 7) 4) (by decide) (by decide)
  exact (frame.mpr fun j beyond copied => by omega).1 148 (by decide +kernel)

/-- A message of 149 bytes runs over the field `len` of the message that is pending in the
next slot. -/
theorem push_overruns : ∃ (events : List (Event Unit)) (q : ByteQueue),
    Run ByteStep twoItems events q ∧ (q.push (fun _ => 7) 149).tail ≠ q.tail ∧ q.Pending 0 ∧
      InItem (q.pendingSlot 0) 148 ∧ q.bytes 148 = 4 ∧
      (q.push (fun _ => 7) 149).bytes 148 = 7 := by
  let one := twoItems.push (fun _ => 1) 4
  let two := one.push (fun _ => 1) 4
  have first : ByteStep twoItems (.stored ()) one := .store (twoItems_accepts _ 4)
  have accepted : two.tail ≠ one.tail := by decide +kernel
  have pending : two.head < two.tail := by decide +kernel
  exact ⟨_, two.popped, ((Run.single first).snoc (.store accepted)).snoc (.pop pending),
    by decide +kernel, by decide +kernel, by decide +kernel, by decide +kernel,
    by decide +kernel⟩

end ByteQueue
end RazorCrypto.ShmQueue
