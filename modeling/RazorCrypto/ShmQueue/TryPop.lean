import RazorCrypto.ShmQueue.Queue

/-!
# `try_pop`

The second way to take messages. A consumer counts in its own `_head`, which is not the
`head` in the shared memory. `try_pop` moves only the former and `push` looks only at the
latter. So the messages come out in order and each once, but nothing that `try_pop` takes
makes room: after as many messages as the queue has slots, all others are dropped.
-/

universe u

namespace RazorCrypto.ShmQueue

open MachineInt SlotRing Transition

variable {τ : Type u}

/-- A process that takes messages with `try_pop`: the queue it shares and its `_head`. -/
structure Consuming (τ : Type u) where
  shared : SharedMemoryQueue τ
  head : Int

/-- `try_pop`: the message, if there is one. A consumer that is a lap behind gets a line on
the standard output and the same message. -/
def Consuming.tryPop (c : Consuming τ) : Option τ × Consuming τ :=
  if c.shared.tail ≤ c.head then (none, c)
  else
    let cur := c.shared.slot c.head
    (some (c.shared.items cur).buf, { c with head := asInt32 (c.head + 1) })

/-- What a call of `push` or `try_pop` did. -/
inductive Answer (τ : Type u)
  | accepted (buf : τ)
  | dropped (buf : τ)
  | returned (buf : τ)
  | nothing

/-- One producer and one consumer, one call at a time. -/
inductive TryStep : Consuming τ → Answer τ → Consuming τ → Prop
  | accept {c buf len} (moved : (c.shared.push buf len).tail ≠ c.shared.tail) :
      TryStep c (.accepted buf) { c with shared := c.shared.push buf len }
  | drop {c buf len} (full : (c.shared.push buf len).tail = c.shared.tail) :
      TryStep c (.dropped buf) { c with shared := c.shared.push buf len }
  | take {c buf c'} (returned : c.tryPop = (some buf, c')) : TryStep c (.returned buf) c'
  | fail {c c'} (empty : c.tryPop = (none, c')) : TryStep c .nothing c'

/-- The messages that `push` accepted, in order. -/
def accepted (answers : List (Answer τ)) : List τ :=
  answers.filterMap fun
    | .accepted buf => some buf
    | _ => none

/-- The messages that `try_pop` returned, in order. -/
def returned (answers : List (Answer τ)) : List τ :=
  answers.filterMap fun
    | .returned buf => some buf
    | _ => none

/-- The queue flows: with `stored` accepted and `taken` returned, the next call is answered
by a FIFO of `2 ^ k` places. -/
structure Flows (k : Nat) (stored taken : List τ) (c : Consuming τ) : Prop where
  order : taken <+: stored
  accepts : stored.length < taken.length + 2 ^ k →
    ∀ buf len, (c.shared.push buf len).tail ≠ c.shared.tail
  returns : ∀ buf rest, stored.drop taken.length = buf :: rest → c.tryPop.1 = some buf
  fails : c.tryPop.1 = none ↔ stored.drop taken.length = []

/-! ## What a run leaves -/

/-- The state after a run on a queue through which `earlier` had passed. The shared `head`
still stands where it stood. -/
structure Takes (k : Nat) (earlier stored taken : List τ) (c : Consuming τ) : Prop where
  represented : Represents k (earlier ++ stored) earlier c.shared
  head : c.head = asInt32 (earlier.length + taken.length)
  order : taken <+: stored

namespace Takes

variable {k : Nat} {earlier stored taken : List τ} {c c' : Consuming τ}

theorem length_le (h : Takes k earlier stored taken c) : taken.length ≤ stored.length :=
  h.order.length_le

/-- All that is stored since the start is in its slot, taken or not. -/
theorem stored_length_le (h : Takes k earlier stored taken c) : stored.length ≤ 2 ^ k := by
  have room := h.represented.room
  rw [List.length_append] at room
  omega

theorem tail_le_head_iff (h : Takes k earlier stored taken c)
    (few : earlier.length + stored.length < 2147483648) :
    c.shared.tail ≤ c.head ↔ stored.length ≤ taken.length := by
  have le := h.length_le
  have head : c.head = earlier.length + taken.length := by
    rw [h.head, asInt32_of_mem (by omega) (by omega)]
  have tail : c.shared.tail = earlier.length + stored.length := by
    rw [h.represented.tail, List.length_append, asInt32_of_mem (by omega) (by omega)]
    exact Nat.cast_add ..
  omega

/-- `try_pop` returns the oldest message that it did not return before. -/
theorem tryPop_fst (h : Takes k earlier stored taken c)
    (few : earlier.length + stored.length < 2147483648) :
    c.tryPop.1 = stored[taken.length]? := by
  unfold Consuming.tryPop
  by_cases none : stored.length ≤ taken.length
  · rw [if_pos ((h.tail_le_head_iff few).mpr none), List.getElem?_eq_none none]
  · have new : taken.length < stored.length := by omega
    have slot : c.shared.slot c.head = (earlier.length + taken.length) % 2 ^ k := by
      rw [h.head, ← Nat.cast_add]
      exact h.represented.slot _
    have kept := h.represented.kept (earlier.length + taken.length)
      (by rw [List.length_append]; omega) (Nat.le_add_right ..)
    have entry : (earlier ++ stored)[earlier.length + taken.length]? = stored[taken.length]? := by
      rw [List.getElem?_append_right (Nat.le_add_right ..), Nat.add_sub_cancel_left]
    rw [if_neg (mt (h.tail_le_head_iff few).mp none), slot, ← entry,
      List.getElem?_eq_getElem (by rw [List.length_append]; omega), ← kept]
    rfl

theorem take (h : Takes k earlier stored taken c)
    (few : earlier.length + stored.length < 2147483648) {buf : τ}
    (answer : c.tryPop = (some buf, c')) : Takes k earlier stored (taken ++ [buf]) c' := by
  have oldest := h.tryPop_fst few
  rw [answer] at oldest
  unfold Consuming.tryPop at answer
  split at answer
  · cases answer
  · cases answer
    refine ⟨h.represented, ?_, ?_⟩
    · rw [List.length_append, List.length_singleton]
      change asInt32 (c.head + 1) = _
      rw [h.head, asInt32_add_asInt32, Nat.cast_add, Int.add_assoc]
      rfl
    · rw [List.prefix_iff_eq_take, List.length_append, List.length_singleton, List.take_add_one,
        ← oldest, ← List.prefix_iff_eq_take.mp h.order]
      rfl

theorem step {e : Answer τ} (h : Takes k earlier stored taken c)
    (few : earlier.length + stored.length < 2147483648) (next : TryStep c e c') :
    Takes k earlier (stored ++ accepted [e]) (taken ++ returned [e]) c' := by
  cases next with
  | @accept buf len moved =>
      have free := (h.represented.push_tail_ne_iff buf len).mp moved
      have pushed := h.represented.push free buf len
      rw [List.append_assoc] at pushed
      change Takes k earlier (stored ++ [buf]) (taken ++ []) _
      rw [List.append_nil]
      exact ⟨pushed, h.head, h.order.trans (List.prefix_append ..)⟩
  | @drop buf len full =>
      change Takes k earlier (stored ++ []) (taken ++ []) _
      rw [List.append_nil, List.append_nil]
      have occupied := mt (h.represented.push_tail_ne_iff buf len).mpr (not_not_intro full)
      rw [h.represented.push_eq, if_neg occupied]
      exact h
  | @take buf c' answer =>
      change Takes k earlier (stored ++ []) (taken ++ [buf]) _
      rw [List.append_nil]
      exact h.take few answer
  | fail empty =>
      change Takes k earlier (stored ++ []) (taken ++ []) _
      rw [List.append_nil, List.append_nil]
      unfold Consuming.tryPop at empty
      split at empty
      · cases empty
        exact h
      · cases empty

end Takes

section Runs

variable {k : Nat} {earlier stored taken : List τ} {answers : List (Answer τ)}
variable {q : SharedMemoryQueue τ} {c : Consuming τ}

theorem Takes.run (empty : Represents k earlier earlier q)
    (run : Run TryStep ⟨q, q.head⟩ answers c)
    (few : earlier.length + (accepted answers).length < 2147483648) :
    Takes k earlier (accepted answers) (returned answers) c := by
  have start : Takes k earlier [] [] ⟨q, q.head⟩ := by
    refine ⟨?_, ?_, List.prefix_refl _⟩
    · rw [List.append_nil]
      exact empty
    · exact empty.head.trans (congrArg asInt32 (Int.add_zero _).symm)
  refine run.invariant (I := fun answers c =>
    earlier.length + (accepted answers).length < 2147483648 →
      Takes k earlier (accepted answers) (returned answers) c) (fun _ => start) ?_ few
  intro es c e c' before next few
  have accepted_eq : accepted (es ++ [e]) = accepted es ++ accepted [e] := List.filterMap_append ..
  have returned_eq : returned (es ++ [e]) = returned es ++ returned [e] := List.filterMap_append ..
  rw [accepted_eq, List.length_append] at few
  rw [accepted_eq, returned_eq]
  exact (before (by omega)).step (by omega) next

/-- The order and the answers of `try_pop` are those of the FIFO. What is left of the room is
not: it shrinks with each accepted message. -/
theorem Takes.flows_iff (h : Takes k earlier stored taken c)
    (few : earlier.length + stored.length < 2147483648) :
    Flows k stored taken c ↔ (stored.length < 2 ^ k ∨ taken = []) := by
  have accepts : ∀ buf len, (c.shared.push buf len).tail ≠ c.shared.tail ↔
      stored.length < 2 ^ k := by
    intro buf len
    rw [h.represented.push_tail_ne_iff, List.length_append]
    omega
  have full := h.stored_length_le
  constructor
  · intro flows
    by_cases room : stored.length < taken.length + 2 ^ k
    · cases stored with
      | nil => exact .inl (Nat.two_pow_pos k)
      | cons buf rest => exact .inl ((accepts buf 0).mp (flows.accepts room buf 0))
    · right
      exact List.length_eq_zero_iff.mp (by omega)
  · intro room
    refine ⟨h.order, ?_, ?_, ?_⟩
    · intro pending buf len
      rw [accepts]
      obtain room | rfl := room
      · exact room
      · simpa using pending
    · intro buf rest oldest
      rw [h.tryPop_fst few, ← List.head?_drop, oldest]
      rfl
    · rw [h.tryPop_fst few, List.getElem?_eq_none_iff, List.drop_eq_nil_iff]

/-- In every run the queue flows exactly as long as fewer messages were accepted than it has
slots, or none was taken. -/
theorem tryPop_flows_iff (empty : Represents k earlier earlier q)
    (run : Run TryStep ⟨q, q.head⟩ answers c)
    (few : earlier.length + (accepted answers).length < 2147483648) :
    Flows k (accepted answers) (returned answers) c ↔
      ((accepted answers).length < 2 ^ k ∨ returned answers = []) :=
  (Takes.run empty run few).flows_iff few

end Runs

/-- A queue of one slot. -/
def oneSlot : SharedMemoryQueue Nat := .construct (fun _ => ⟨0, 0⟩) (2 ^ 0)

theorem oneSlot_represents : Represents 0 [] [] oneSlot := construct_represents (by decide) _

/-- One message passes through the queue. -/
theorem oneSlot_run : ∃ c, Run TryStep ⟨oneSlot, oneSlot.head⟩ [.accepted 7, .returned 7] c := by
  have moved := (oneSlot_represents.push_tail_ne_iff 7 4).mpr (by decide)
  have pushed := Run.single (TryStep.accept (c := ⟨oneSlot, oneSlot.head⟩) moved)
  have oldest := (Takes.run oneSlot_represents pushed (by decide)).tryPop_fst (by decide)
  exact ⟨_, pushed.snoc (.take (Prod.ext oldest rfl))⟩

theorem tryPop_flows_iff_one : ∃ c,
    Run TryStep ⟨oneSlot, oneSlot.head⟩ [.accepted 7, .returned 7] c ∧ ¬ Flows 0 [7] [7] c := by
  obtain ⟨c, run⟩ := oneSlot_run
  exact ⟨c, run, (tryPop_flows_iff oneSlot_represents run (by decide)).not.mpr (by decide)⟩

/-- The message is taken, nothing is pending, and the queue drops the next one. -/
theorem push_drops : ∃ c, Run TryStep ⟨oneSlot, oneSlot.head⟩ [.accepted 7, .returned 7] c ∧
    (accepted [.accepted 7, .returned 7]).length <
      (returned [.accepted 7, .returned 7]).length + 2 ^ 0 ∧
    (c.shared.push 9 4).tail = c.shared.tail := by
  obtain ⟨c, run⟩ := oneSlot_run
  have state := Takes.run oneSlot_represents run (by decide)
  refine ⟨c, run, by decide, ?_⟩
  by_contra moved
  exact absurd ((state.represented.push_tail_ne_iff 9 4).mp moved) (by decide)

end RazorCrypto.ShmQueue
