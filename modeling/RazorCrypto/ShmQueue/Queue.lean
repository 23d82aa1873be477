import RazorCrypto.Foundation.MachineInt
import RazorCrypto.Foundation.SlotRing
import RazorCrypto.Foundation.Transition

/-!
# `shared_memory_queue`

A queue of items in a ring of slots, with two counters of 32 bits. Both only grow, so that
they wrap around from the largest `int` to the smallest. `push` compares their difference
with the size and `wait_and_pop` compares the counters themselves. Here the operations run
one at a time.

The queue stores a limited FIFO: what was accepted and not yet popped. It behaves as this
FIFO up to the point where the sign of the two counters differs: there `wait_and_pop` takes
a queue with pending items for an empty one.
-/

universe u

namespace RazorCrypto.ShmQueue

open MachineInt SlotRing Transition

variable {τ : Type u}

/-- `item_t`, with a message of type `τ` in its buffer. -/
structure Item (τ : Type u) where
  len : Int
  buf : τ

/-- `shared_memory_queue` and the `shared_data` it points to. -/
structure SharedMemoryQueue (τ : Type u) where
  head : Int
  tail : Int
  items : Nat → Item τ
  size : Int
  mask : Int

/-- `get_nextpowerof2`. -/
def getNextpowerof2 (n : Nat) : Nat :=
  if n &&& asUInt64 (n - 1) ≠ 0 then
    let n := n ||| n >>> 1
    let n := n ||| n >>> 2
    let n := n ||| n >>> 4
    let n := n ||| n >>> 8
    let n := n ||| n >>> 16
    let n := n ||| n >>> 32
    asUInt64 (n + 1)
  else n

namespace SharedMemoryQueue

/-- The constructor, for the process that creates the shared memory. -/
def construct (items : Nat → Item τ) (size : Int) : SharedMemoryQueue τ :=
  let size := asInt32 (getNextpowerof2 (asUInt64 size))
  { head := 0, tail := 0, items := items, size := size, mask := size - 1 }

/-- The slot of a counter: `index & _mask`. -/
def slot (q : SharedMemoryQueue τ) (index : Int) : Nat := asUInt32 index &&& asUInt32 q.mask

/-- `push`. A full queue is left as it is. -/
def push (q : SharedMemoryQueue τ) (buf : τ) (len : Int) : SharedMemoryQueue τ :=
  let curHead := q.head
  let curTail := q.tail
  if q.size ≤ asInt32 (curTail - curHead) then q
  else
    { q with
      items := Function.update q.items (q.slot curTail) ⟨len, buf⟩
      tail := asInt32 (curTail + 1) }

/-- `wait_and_pop`, for a number of iterations: the message and the queue after it. Alone,
the exchange of `head` succeeds. -/
def waitAndPop (q : SharedMemoryQueue τ) : Nat → Option (τ × SharedMemoryQueue τ)
  | 0 => none
  | fuel + 1 =>
    if q.head < q.tail then
      some ((q.items (q.slot q.head)).buf, { q with head := asInt32 (q.head + 1) })
    else waitAndPop q fuel

/-- An iteration either returns or leaves everything as it is. -/
theorem waitAndPop_eq_some {q q' : SharedMemoryQueue τ} {fuel : Nat} {buf : τ}
    (returned : q.waitAndPop fuel = some (buf, q')) :
    q.head < q.tail ∧ buf = (q.items (q.slot q.head)).buf ∧
      q' = { q with head := asInt32 (q.head + 1) } := by
  induction fuel with
  | zero => cases returned
  | succ fuel ih =>
      rw [waitAndPop] at returned
      split at returned
      · next pending =>
          cases returned
          exact ⟨pending, rfl, rfl⟩
      · exact ih returned

theorem waitAndPop_of_lt {q : SharedMemoryQueue τ} (pending : q.head < q.tail) :
    q.waitAndPop 1 =
      some ((q.items (q.slot q.head)).buf, { q with head := asInt32 (q.head + 1) }) :=
  if_pos pending

/-- With the counters in the wrong order, each iteration leaves everything as it is. -/
theorem waitAndPop_eq_none {q : SharedMemoryQueue τ} (nothing : ¬ q.head < q.tail) (fuel : Nat) :
    q.waitAndPop fuel = none := by
  induction fuel with
  | zero => rfl
  | succ fuel ih =>
      rw [waitAndPop, if_neg nothing]
      exact ih

end SharedMemoryQueue

/-! ## The FIFO that is stored -/

/-- The queue of `2 ^ k` slots when `stored` was accepted and `popped` was taken from it. -/
structure Represents (k : Nat) (stored popped : List τ) (q : SharedMemoryQueue τ) : Prop where
  small : k ≤ 30
  size : q.size = (2 : Int) ^ k
  mask : q.mask = (2 : Int) ^ k - 1
  head : q.head = asInt32 popped.length
  tail : q.tail = asInt32 stored.length
  taken : popped <+: stored
  room : stored.length ≤ popped.length + 2 ^ k
  kept : Holds (2 ^ k) 0 (fun slot => (q.items slot).buf) stored popped.length

variable {k : Nat} {stored popped : List τ} {q q' : SharedMemoryQueue τ}

theorem construct_represents (small : k ≤ 30) (items : Nat → Item τ) :
    Represents k [] [] (SharedMemoryQueue.construct items (2 ^ k)) := by
  have le : 2 ^ k ≤ 2 ^ 30 := Nat.pow_le_pow_right (by decide) small
  have pos : 0 < 2 ^ k := Nat.two_pow_pos k
  have cast : (2 : Int) ^ k = ((2 ^ k : Nat) : Int) := (Nat.cast_pow 2 k).symm
  have unsigned : asUInt64 (2 ^ k) = 2 ^ k := by
    rw [cast]
    exact asUInt64_natCast (by omega)
  have mask : asUInt64 ((2 ^ k : Nat) - 1 : Int) = 2 ^ k - 1 := by
    rw [asUInt64_of_mem (by omega) (by omega)]
    omega
  have power : getNextpowerof2 (2 ^ k) = 2 ^ k := by
    rw [getNextpowerof2, mask, Nat.and_two_pow_sub_one_eq_mod, Nat.mod_self]
    exact if_neg (not_not_intro rfl)
  have size : asInt32 (getNextpowerof2 (asUInt64 (2 ^ k))) = (2 : Int) ^ k := by
    rw [unsigned, power, cast]
    exact asInt32_of_mem (by omega) (by omega)
  have zero : (0 : Int) = asInt32 0 := (asInt32_of_mem (by decide) (by decide)).symm
  exact ⟨small, size, congrArg (· - 1) size, zero, zero, List.nil_prefix, Nat.zero_le _, Holds.nil⟩

namespace Represents

theorem pow_le (h : Represents k stored popped q) : 2 ^ k ≤ 1073741824 :=
  Nat.pow_le_pow_right (by decide) h.small

theorem length_le (h : Represents k stored popped q) : popped.length ≤ stored.length :=
  h.taken.length_le

/-- The slot of a wrapped counter. -/
theorem slot (h : Represents k stored popped q) (index : Nat) :
    q.slot (asInt32 index) = index % 2 ^ k := by
  have pow := h.pow_le
  have pos : 0 < 2 ^ k := Nat.two_pow_pos k
  have mask : asUInt32 q.mask = 2 ^ k - 1 := by
    have cast : q.mask = ((2 ^ k - 1 : Nat) : Int) := by
      rw [h.mask, Nat.cast_sub pos, Nat.cast_pow]
      rfl
    rw [cast, asUInt32_natCast, Nat.mod_eq_of_lt (by omega)]
  have divides : 2 ^ k ∣ 4294967296 := Nat.pow_dvd_pow 2 (show k ≤ 32 by have := h.small; omega)
  rw [SharedMemoryQueue.slot, mask, asUInt32_asInt32, asUInt32_natCast,
    Nat.and_two_pow_sub_one_eq_mod, Nat.mod_mod_of_dvd _ divides]

/-- `push` takes the difference of the counters, which survives the wrap. -/
theorem push_eq (h : Represents k stored popped q) (buf : τ) (len : Int) :
    q.push buf len =
      if stored.length < popped.length + 2 ^ k then
        { q with
          items := Function.update q.items (stored.length % 2 ^ k) ⟨len, buf⟩
          tail := asInt32 (stored.length + 1) }
      else q := by
  have pow := h.pow_le
  have le := h.length_le
  have room := h.room
  have size : q.size = ((2 ^ k : Nat) : Int) := by rw [h.size, Nat.cast_pow]; rfl
  have pending : asInt32 (q.tail - q.head) = stored.length - popped.length := by
    rw [h.head, h.tail, asInt32_sub_asInt32]
    exact asInt32_of_mem (by omega) (by omega)
  rw [SharedMemoryQueue.push, pending, size]
  by_cases free : stored.length < popped.length + 2 ^ k
  · rw [if_pos free, if_neg (by omega), h.tail, h.slot, asInt32_add_asInt32]
  · rw [if_neg free, if_pos (by omega)]

/-- `wait_and_pop` compares the counters, which does not. -/
theorem head_lt_tail_iff (h : Represents k stored popped q) :
    q.head < q.tail ↔ popped.length < stored.length ∧
      ∀ m, ¬ (popped.length < 2147483648 * (2 * m + 1) ∧
        2147483648 * (2 * m + 1) ≤ stored.length) := by
  have pow := h.pow_le
  have room := h.room
  rw [h.head, h.tail]
  exact asInt32_lt_asInt32_iff h.length_le (by omega)

/-- `tail` shows whether a message was stored. -/
theorem push_tail_ne_iff (h : Represents k stored popped q) (buf : τ) (len : Int) :
    (q.push buf len).tail ≠ q.tail ↔ stored.length < popped.length + 2 ^ k := by
  rw [h.push_eq]
  by_cases free : stored.length < popped.length + 2 ^ k
  · rw [if_pos free]
    refine iff_of_true ?_ free
    rw [h.tail]
    exact asInt32_add_one_ne _
  · rw [if_neg free]
    exact iff_of_false (not_not_intro rfl) free

/-- An accepted message is appended to the stored ones. -/
theorem push (h : Represents k stored popped q) (free : stored.length < popped.length + 2 ^ k)
    (buf : τ) (len : Int) : Represents k (stored ++ [buf]) popped (q.push buf len) := by
  rw [h.push_eq, if_pos free]
  refine ⟨h.small, h.size, h.mask, h.head, ?_, ?_, ?_, ?_⟩
  · rw [List.length_append, List.length_singleton, Nat.cast_add]
    rfl
  · exact h.taken.trans (List.prefix_append ..)
  · rw [List.length_append]
    exact free
  · have slots : (fun slot =>
        (Function.update q.items (stored.length % 2 ^ k) ⟨len, buf⟩ slot).buf) =
        Function.update (fun slot => (q.items slot).buf) ((stored.length + 0) % 2 ^ k) buf :=
      Function.comp_update Item.buf _ _ _
    rw [slots]
    exact (h.kept.update (Nat.le_refl _) free buf).extend (Function.update_self ..)

/-- What `wait_and_pop` returns is the oldest message that is pending. -/
theorem waitAndPop (h : Represents k stored popped q) {fuel : Nat} {buf : τ}
    (returned : q.waitAndPop fuel = some (buf, q')) :
    Represents k stored (popped ++ [buf]) q' ∧ stored[popped.length]? = some buf := by
  obtain ⟨pending, oldest, rfl⟩ := SharedMemoryQueue.waitAndPop_eq_some returned
  have new := (h.head_lt_tail_iff.mp pending).1
  have value : stored[popped.length]? = some buf := by
    rw [List.getElem?_eq_getElem new, oldest, h.head, h.slot, Option.some.injEq,
      ← h.kept popped.length new (Nat.le_refl _)]
    rfl
  refine ⟨⟨h.small, h.size, h.mask, ?_, h.tail, ?_, ?_, ?_⟩, value⟩
  · rw [List.length_append, List.length_singleton, Nat.cast_add]
    change asInt32 (q.head + 1) = _
    rw [h.head, asInt32_add_asInt32]
    rfl
  · rw [List.prefix_iff_eq_take, List.length_append, List.length_singleton, List.take_add_one,
      value, ← List.prefix_iff_eq_take.mp h.taken]
    rfl
  · rw [List.length_append]
    have room := h.room
    omega
  · rw [List.length_append]
    exact h.kept.mono (Nat.le_add_right _ _)

end Represents

/-! ## Runs -/

/-- What an operation did. -/
inductive Event (τ : Type u)
  | stored (buf : τ)
  | dropped (buf : τ)
  | popped (buf : τ)

/-- An operation that returns. Whether a message was stored shows in `tail`. -/
inductive Step : SharedMemoryQueue τ → Event τ → SharedMemoryQueue τ → Prop
  | store {q buf len} (accepted : (q.push buf len).tail ≠ q.tail) :
      Step q (.stored buf) (q.push buf len)
  | drop {q buf len} (full : (q.push buf len).tail = q.tail) :
      Step q (.dropped buf) (q.push buf len)
  | pop {q fuel buf q'} (returned : q.waitAndPop fuel = some (buf, q')) :
      Step q (.popped buf) q'

/-- The messages stored in a run, in order. -/
def stores (events : List (Event τ)) : List τ :=
  events.filterMap fun
    | .stored buf => some buf
    | _ => none

/-- The messages popped in a run, in order. -/
def pops (events : List (Event τ)) : List τ :=
  events.filterMap fun
    | .popped buf => some buf
    | _ => none

/-- A FIFO of limited capacity. -/
inductive FifoStep (capacity : Nat) : List τ → Event τ → List τ → Prop
  | store {fifo} (buf : τ) (room : fifo.length < capacity) :
      FifoStep capacity fifo (.stored buf) (fifo ++ [buf])
  | drop {fifo} (buf : τ) (full : capacity ≤ fifo.length) :
      FifoStep capacity fifo (.dropped buf) fifo
  | pop {fifo} (buf : τ) : FifoStep capacity (buf :: fifo) (.popped buf) fifo

/-- The next operation on the queue does what it does on the FIFO. -/
structure Answers (capacity : Nat) (fifo : List τ) (q : SharedMemoryQueue τ) : Prop where
  stores : ∀ buf len, fifo.length < capacity → (q.push buf len).tail ≠ q.tail
  drops : ∀ buf len, capacity ≤ fifo.length → q.push buf len = q
  pops : ∀ buf rest, fifo = buf :: rest → ∃ fuel q', q.waitAndPop fuel = some (buf, q')
  waits : fifo = [] → ∀ fuel, q.waitAndPop fuel = none

variable {items : Nat → Item τ} {events : List (Event τ)}

/-- Each step is one of the FIFO that holds what is stored and not popped. -/
theorem Represents.step {e : Event τ} (h : Represents k stored popped q) (taken : Step q e q') :
    Represents k (stored ++ stores [e]) (popped ++ pops [e]) q' ∧
      FifoStep (2 ^ k) (stored.drop popped.length) e
        ((stored ++ stores [e]).drop (popped ++ pops [e]).length) := by
  have le := h.length_le
  have pending : (stored.drop popped.length).length = stored.length - popped.length :=
    List.length_drop
  cases taken with
  | @store buf len accepted =>
      change Represents k (stored ++ [buf]) (popped ++ []) _ ∧
        FifoStep _ _ _ ((stored ++ [buf]).drop (popped ++ []).length)
      have free := (h.push_tail_ne_iff buf len).mp accepted
      rw [List.append_nil, List.drop_append_of_le_length le]
      exact ⟨h.push free buf len, .store buf (by omega)⟩
  | @drop buf len full =>
      change Represents k (stored ++ []) (popped ++ []) _ ∧
        FifoStep _ _ _ ((stored ++ []).drop (popped ++ []).length)
      have occupied := mt (h.push_tail_ne_iff buf len).mpr (not_not_intro full)
      rw [List.append_nil, List.append_nil, h.push_eq, if_neg occupied]
      exact ⟨h, .drop buf (by omega)⟩
  | @pop fuel buf q' returned =>
      change Represents k (stored ++ []) (popped ++ [buf]) _ ∧
        FifoStep _ _ _ ((stored ++ []).drop (popped ++ [buf]).length)
      obtain ⟨next, oldest⟩ := h.waitAndPop returned
      obtain ⟨new, rfl⟩ := List.getElem?_eq_some_iff.mp oldest
      rw [List.append_nil, List.length_append, List.length_singleton,
        List.drop_eq_getElem_cons new]
      exact ⟨next, .pop _⟩

theorem Represents.run (small : k ≤ 30)
    (run : Run Step (SharedMemoryQueue.construct items (2 ^ k)) events q) :
    Represents k (stores events) (pops events) q ∧
      Run (FifoStep (2 ^ k)) [] events ((stores events).drop (pops events).length) := by
  refine run.invariant (I := fun events q => Represents k (stores events) (pops events) q ∧
    Run (FifoStep (2 ^ k)) [] events ((stores events).drop (pops events).length))
    ⟨construct_represents small items, .refl⟩ ?_
  rintro events q e q' ⟨represented, before⟩ taken
  obtain ⟨next, step⟩ := represented.step taken
  have stores_eq : stores (events ++ [e]) = stores events ++ stores [e] := List.filterMap_append ..
  have pops_eq : pops (events ++ [e]) = pops events ++ pops [e] := List.filterMap_append ..
  rw [stores_eq, pops_eq]
  exact ⟨next, before.snoc step⟩

/-- The sign of the counters does not change between the oldest pending message and the
newest one. -/
def Steady (popped stored : Nat) : Prop :=
  ∀ m, ¬ (popped < 2147483648 * (2 * m + 1) ∧ 2147483648 * (2 * m + 1) ≤ stored)

/-- A queue answers like its FIFO exactly if nothing is pending or the counters are steady. -/
theorem Represents.answers_iff (h : Represents k stored popped q) :
    Answers (2 ^ k) (stored.drop popped.length) q ↔
      (stored.drop popped.length ≠ [] → Steady popped.length stored.length) := by
  have le := h.length_le
  have pending : (stored.drop popped.length).length = stored.length - popped.length :=
    List.length_drop
  constructor
  · intro answers nonempty
    obtain ⟨buf, rest, fifo⟩ := List.exists_cons_of_ne_nil nonempty
    obtain ⟨fuel, q', returned⟩ := answers.pops buf rest fifo
    exact (h.head_lt_tail_iff.mp (SharedMemoryQueue.waitAndPop_eq_some returned).1).2
  · intro steady
    refine ⟨?_, ?_, ?_, ?_⟩
    · intro buf len room
      exact (h.push_tail_ne_iff buf len).mpr (by omega)
    · intro buf len full
      rw [h.push_eq, if_neg (by omega)]
    · intro buf rest fifo
      have nonempty : stored.drop popped.length ≠ [] := by
        rw [fifo]
        exact List.cons_ne_nil _ _
      have new : popped.length < stored.length := by
        rw [← List.length_pos_iff] at nonempty
        omega
      have returned := SharedMemoryQueue.waitAndPop_of_lt
        (h.head_lt_tail_iff.mpr ⟨new, steady nonempty⟩)
      have oldest := (h.waitAndPop returned).2
      rw [List.drop_eq_getElem_cons new, List.cons.injEq] at fifo
      rw [List.getElem?_eq_getElem new, fifo.1, Option.some.injEq] at oldest
      exact ⟨1, _, oldest ▸ returned⟩
    · intro empty fuel
      have none : ¬ popped.length < stored.length := by
        rw [List.drop_eq_nil_iff] at empty
        omega
      exact SharedMemoryQueue.waitAndPop_eq_none
        (fun lt => none (h.head_lt_tail_iff.mp lt).1) fuel

/-- In every run the queue does what the FIFO does that holds the pending messages. It also
answers the next operation like it exactly if, with messages pending, no odd multiple of
`2 ^ 31` lies between the numbers of popped and of stored messages. -/
theorem fifo_iff (small : k ≤ 30)
    (run : Run Step (SharedMemoryQueue.construct items (2 ^ k)) events q) :
    ∃ fifo, Run (FifoStep (2 ^ k)) [] events fifo ∧
      (Answers (2 ^ k) fifo q ↔
        (fifo ≠ [] → Steady (pops events).length (stores events).length)) := by
  obtain ⟨represented, abstract⟩ := Represents.run small run
  exact ⟨_, abstract, represented.answers_iff⟩

/-- A queue of two slots. -/
def twoSlots : SharedMemoryQueue Nat := .construct (fun _ => ⟨0, 0⟩) (2 ^ 1)

/-- Two messages fill the queue, a third one is dropped, and there is room again after a pop. -/
def filling : List (Event Nat) := [.stored 7, .stored 8, .dropped 9, .popped 7, .stored 10]

theorem filling_run : ∃ q, Run Step twoSlots filling q := by
  let full := (twoSlots.push 7 4).push 8 4
  let dropped := full.push 9 4
  let taken := { dropped with head := asInt32 (dropped.head + 1) }
  have first : Step twoSlots (.stored 7) (twoSlots.push 7 4) := .store (by decide +kernel)
  have second : Step (twoSlots.push 7 4) (.stored 8) full := .store (by decide +kernel)
  have third : Step full (.dropped 9) dropped := .drop (by decide +kernel)
  have pending : dropped.head < dropped.tail := by decide +kernel
  have oldest : (dropped.items (dropped.slot dropped.head)).buf = 7 := by decide +kernel
  have popped : Step dropped (.popped 7) taken := by
    have returned : dropped.waitAndPop 1 = some (7, taken) := by
      rw [SharedMemoryQueue.waitAndPop_of_lt pending, oldest]
    exact .pop returned
  have fourth : Step taken (.stored 10) (taken.push 10 4) := .store (by decide +kernel)
  exact ⟨_, .head first <| .head second <| .head third <| .head popped <| .single fourth⟩

theorem fifo_iff_two : ∃ fifo q, Run Step twoSlots filling q ∧
    Run (FifoStep (2 ^ 1)) [] filling fifo ∧ Answers (2 ^ 1) fifo q := by
  obtain ⟨q, run⟩ := filling_run
  obtain ⟨fifo, abstract, answers⟩ := fifo_iff (by decide) run
  refine ⟨fifo, q, run, abstract, answers.mpr fun _ m => ?_⟩
  have popped : (pops filling).length = 1 := rfl
  have stored : (stores filling).length = 3 := rfl
  omega

/-- Messages are pushed and popped in turn without a change of sign. -/
theorem run_turns (n : Nat) (small : n < 2147483648) : ∃ events q,
    Run Step twoSlots events q ∧ (stores events).length = n ∧ (pops events).length = n := by
  induction n with
  | zero => exact ⟨[], _, .refl, rfl, rfl⟩
  | succ n ih =>
      obtain ⟨events, q, run, stores_eq, pops_eq⟩ := ih (by omega)
      obtain ⟨represented, -⟩ := Represents.run (by decide) run
      have free : (stores events).length < (pops events).length + 2 ^ 1 := by omega
      have accepted := (represented.push_tail_ne_iff 7 4).mpr free
      have pending := (represented.push free 7 4).head_lt_tail_iff.mpr <| by
        rw [List.length_append, stores_eq, pops_eq]
        exact ⟨Nat.lt_succ_self n, fun m => by simp only [List.length_singleton]; omega⟩
      refine ⟨_, _, (run.snoc (.store accepted)).snoc
        (.pop (SharedMemoryQueue.waitAndPop_of_lt pending)), ?_, ?_⟩
      · simp [stores, List.filterMap_append, ← stores_eq]
      · simp [pops, List.filterMap_append, ← pops_eq]

/-- The message that is stored as number `2 ^ 31` is never popped. -/
theorem pop_spins : ∃ (events : List (Event Nat)) (q : SharedMemoryQueue Nat),
    Run Step twoSlots events q ∧ (stores events).length = 2147483648 ∧
      (pops events).length = 2147483647 ∧ ∀ fuel, q.waitAndPop fuel = none := by
  obtain ⟨events, q, run, stores_eq, pops_eq⟩ := run_turns 2147483647 (by decide)
  obtain ⟨represented, -⟩ := Represents.run (by decide) run
  have free : (stores events).length < (pops events).length + 2 ^ 1 := by omega
  have accepted := (represented.push_tail_ne_iff 7 4).mpr free
  refine ⟨_, _, run.snoc (.store accepted), ?_, ?_, ?_⟩
  · rw [stores, List.filterMap_append, List.length_append]
    exact congrArg (· + 1) stores_eq
  · rw [pops, List.filterMap_append, List.length_append]
    exact pops_eq
  · refine SharedMemoryQueue.waitAndPop_eq_none fun lt => ?_
    have steady := ((represented.push free 7 4).head_lt_tail_iff.mp lt).2 0
    rw [List.length_append, stores_eq, pops_eq] at steady
    exact steady ⟨by decide, by decide⟩

end RazorCrypto.ShmQueue
