import Mathlib.Data.List.DropRight
import Mathlib.Data.List.ReduceOption
import RazorCrypto.Mq.Delivery

/-!
# Reading many messages at once

`get_all_pending` and `get_all` ask the ring for every sequence number of a range, and the
ring answers for each of them, whether or not its message is still there. A range that is
longer than the ring therefore yields some messages twice. The bound `max_history` of the
first function only reserves memory; the second one starts at the number 0, which no
message has.
-/

universe u

namespace RazorCrypto.Mq

open K4RingBuffer SlotRing Transition

variable {τ : Type u} {n : Nat} {messages : List τ} {ring : K4RingBuffer τ}

namespace MqSub

/-- The loop of both functions, from the number `i` on. The pointers that
`get_by_sequence` returns are never null. -/
def collect (ring : K4RingBuffer τ) (i current : Nat) : List τ :=
  if i ≤ current then ring.getBySequence i :: collect ring (i + 1) current else []
termination_by current + 1 - i

/-- `get_all_pending`: the messages and the subscriber after it. -/
def getAllPending (sub : MqSub) (ring : K4RingBuffer τ) : List τ × MqSub :=
  let current := ring.getCurSequence
  if sub.currentIndex ≥ current then ([], sub)
  else (collect ring (sub.currentIndex + 1) current, { sub with currentIndex := current })

/-- `get_all`. -/
def getAll (_sub : MqSub) (ring : K4RingBuffer τ) : List τ := collect ring 0 ring.getCurSequence

/-- `reset_to_beginning`. -/
def resetToBeginning (sub : MqSub) : MqSub := { sub with currentIndex := 0 }

/-- `skipMessage`. -/
def skipMessage (sub : MqSub) (ring : K4RingBuffer τ) (index : Nat) : Bool × MqSub :=
  if index > ring.getCurSequence then (false, sub) else (true, { sub with currentIndex := index })

theorem collect_eq_map (ring : K4RingBuffer τ) (i current : Nat) :
    collect ring i current = (List.range' i (current + 1 - i)).map ring.getBySequence := by
  fun_induction collect ring i current with
  | case1 i more ih =>
      have count : current + 1 - i = current + 1 - (i + 1) + 1 := by omega
      rw [ih, count, List.range'_succ, List.map_cons]
  | case2 i done =>
      have count : current + 1 - i = 0 := by omega
      rw [count]
      rfl

@[simp] theorem length_collect (ring : K4RingBuffer τ) (i current : Nat) :
    (collect ring i current).length = current + 1 - i := by
  simp [collect_eq_map]

/-- One message for each pending number, however many the ring keeps. -/
theorem length_getAllPending (sub : MqSub) (ring : K4RingBuffer τ) :
    (sub.getAllPending ring).1.length = ring.tail - sub.currentIndex := by
  by_cases none : sub.currentIndex ≥ ring.tail
  · simp [getAllPending, getCurSequence, none, Nat.sub_eq_zero_of_le none]
  · simp [getAllPending, getCurSequence, none]

/-- One message for each number from 0 on. -/
theorem length_getAll (sub : MqSub) (ring : K4RingBuffer τ) :
    (sub.getAll ring).length = ring.tail + 1 := by
  simp [getAll, getCurSequence]

theorem getAllPending_currentIndex {sub : MqSub} (index_le : sub.currentIndex ≤ ring.tail) :
    (sub.getAllPending ring).2.currentIndex = ring.tail := by
  by_cases none : sub.currentIndex ≥ ring.tail
  · simpa [getAllPending, getCurSequence, none] using Nat.le_antisymm index_le none
  · simp [getAllPending, getCurSequence, none]

theorem skipMessage_currentIndex_le {sub : MqSub} (index_le : sub.currentIndex ≤ ring.tail)
    (index : Nat) : (sub.skipMessage ring index).2.currentIndex ≤ ring.tail := by
  by_cases beyond : index > ring.tail
  · simpa [skipMessage, getCurSequence, beyond] using index_le
  · simpa [skipMessage, getCurSequence, beyond] using Nat.le_of_not_lt beyond

end MqSub

namespace Published

/-- The numbers of the last `n` messages are answered with their own messages. -/
theorem getBySequence_own (h : Published n messages ring) {index : Nat} (first : 1 ≤ index)
    (published : index ≤ ring.tail) (kept : ring.tail - index < n) :
    messages[index - 1]? = some (ring.getBySequence index) := by
  have message := h.getBySequence first published
  rwa [Nat.div_eq_of_lt kept, Nat.mul_zero, Nat.add_zero] at message

/-- A loop over no more than the last `n` numbers collects the messages in order. -/
theorem collect (h : Published n messages ring) {index : Nat}
    (kept : ring.tail - index ≤ n) :
    MqSub.collect ring (index + 1) ring.tail = messages.drop index := by
  have tail := h.tail
  apply List.ext_getElem?
  intro k
  rw [MqSub.collect_eq_map, List.getElem?_map, List.getElem?_drop]
  by_cases inside : index + k < messages.length
  · have own := h.getBySequence_own (show 1 ≤ index + 1 + k by omega) (by omega) (by omega)
    rw [show index + 1 + k - 1 = index + k by omega] at own
    rw [own, List.getElem?_range' (by omega)]
    simp
  · rw [List.getElem?_eq_none (Nat.le_of_not_lt inside), List.getElem?_eq_none]
    · rfl
    · simp only [List.length_range']
      omega

/-- `get_all_pending` returns the retained part of what is pending exactly if the subscriber
is at most one lap behind. -/
theorem getAllPending_iff (h : Published n messages ring) {sub : MqSub}
    (index_le : sub.currentIndex ≤ ring.tail) :
    (sub.getAllPending ring).1 = messages.rtake (min (ring.tail - sub.currentIndex) n) ↔
      ring.tail - sub.currentIndex ≤ n := by
  have tail := h.tail
  constructor
  · intro same
    have lengths := congrArg List.length same
    rw [MqSub.length_getAllPending, List.rtake, List.length_drop] at lengths
    omega
  · intro timely
    rw [Nat.min_eq_left timely, List.rtake, ← tail, Nat.sub_sub_self index_le]
    by_cases none : sub.currentIndex ≥ ring.tail
    · simp [MqSub.getAllPending, getCurSequence, none, ← tail]
    · simpa [MqSub.getAllPending, getCurSequence, none] using h.collect timely

end Published

/-! ## A subscriber with all of its reading functions -/

/-- A completed push, shown with its message, or a call of the subscriber. -/
inductive HistoryStep : Queue τ → Option τ → Queue τ → Prop
  | push {s data isSingleP ring slot}
      (pushed : s.ring.push data isSingleP = some (ring, slot)) :
      HistoryStep s (some data) { s with ring := ring }
  | tryReadNew {s} : HistoryStep s none { s with sub := (s.sub.tryReadNew s.ring).2 }
  | getAllPending {s} : HistoryStep s none { s with sub := (s.sub.getAllPending s.ring).2 }
  | skipMessage {s} (index : Nat) :
      HistoryStep s none { s with sub := (s.sub.skipMessage s.ring index).2 }
  | resetToBeginning {s} : HistoryStep s none { s with sub := s.sub.resetToBeginning }

/-- What a run of pushes and calls keeps: the subscriber is never ahead of the ring. -/
structure Behind (n : Nat) (messages : List τ) (s : Queue τ) : Prop where
  published : Published n messages s.ring
  index_le : s.sub.currentIndex ≤ s.ring.tail

namespace Behind

variable {s t : Queue τ} {e : Option τ} {events : List (Option τ)}

theorem step (h : Behind n messages s) (taken : HistoryStep s e t) :
    Behind n (messages ++ e.toList) t := by
  cases taken with
  | push pushed =>
      have published := h.published.push pushed
      refine ⟨published, ?_⟩
      show s.sub.currentIndex ≤ _
      rw [published.tail, List.length_append, ← h.published.tail]
      exact Nat.le_add_right_of_le h.index_le
  | tryReadNew =>
      rw [Option.toList_none, List.append_nil]
      refine ⟨h.published, ?_⟩
      show (s.sub.tryReadNew s.ring).2.currentIndex ≤ s.ring.tail
      by_cases new : s.sub.currentIndex < s.ring.tail
      · have read : (s.sub.tryReadNew s.ring).2.currentIndex = s.sub.currentIndex + 1 := by
          simp [MqSub.tryReadNew, getCurSequence, new]
        rw [read]
        exact new
      · simpa [MqSub.tryReadNew, getCurSequence, new] using h.index_le
  | getAllPending =>
      rw [Option.toList_none, List.append_nil]
      exact ⟨h.published, (MqSub.getAllPending_currentIndex h.index_le).le⟩
  | skipMessage index =>
      rw [Option.toList_none, List.append_nil]
      exact ⟨h.published, MqSub.skipMessage_currentIndex_le h.index_le index⟩
  | resetToBeginning =>
      rw [Option.toList_none, List.append_nil]
      exact ⟨h.published, Nat.zero_le _⟩

theorem run (h : Behind n messages s) (run : Run HistoryStep s events t) :
    Behind n (messages ++ events.reduceOption) t := by
  refine run.invariant (I := fun events t => Behind n (messages ++ events.reduceOption) t) ?_ ?_
  · simpa [List.reduceOption] using h
  · intro events s e t kept taken
    have next := kept.step taken
    rw [List.append_assoc] at next
    rwa [List.reduceOption_append, List.reduceOption_singleton]

end Behind

/-- In every state that pushes and calls lead to, on a ring to which messages were pushed
before and whatever the capacity of the subscriber, `get_all_pending` returns the pending
messages that are retained and catches up with the ring exactly if no more messages are
pending than the ring has slots. -/
theorem getAllPending_retained_iff (memory : K4RingBuffer τ) (two : 2 ≤ n) (int : n < 2147483648)
    {before : List (τ × Bool)} (pushed : pushAll (memory.init n).1 before = some ring)
    {sub : MqSub} (index_le : sub.currentIndex ≤ ring.tail) {events : List (Option τ)}
    {t : Queue τ} (run : Run HistoryStep ⟨ring, sub⟩ events t) :
    ((t.sub.getAllPending t.ring).1 = (before.map Prod.fst ++ events.reduceOption).rtake
        (min (t.ring.tail - t.sub.currentIndex) n) ∧
      (t.sub.getAllPending t.ring).2.currentIndex = t.ring.tail) ↔
    t.ring.tail - t.sub.currentIndex ≤ n := by
  have published := (Published.init memory two int).pushAll pushed
  rw [List.nil_append] at published
  have behind := (Behind.mk (s := ⟨ring, sub⟩) published index_le).run run
  have catches := MqSub.getAllPending_currentIndex behind.index_le
  rw [and_iff_left catches]
  exact behind.published.getAllPending_iff behind.index_le

/-- Three messages on a ring of two slots, of which the first was read. -/
theorem getAllPending_retained_one : ∃ (ring : K4RingBuffer Nat) (t : Queue Nat),
    pushAll ((zeroed 0).init (2 : Nat)).1 [(5, false)] = some ring ∧
    Run HistoryStep ⟨ring, ⟨16, 0⟩⟩ [some 7, none, some 8] t ∧
    (t.sub.getAllPending t.ring).1 = [7, 8] := by
  have fresh : Published 2 [] ((zeroed 0).init (2 : Nat)).1 :=
    Published.init _ (by decide) (by decide)
  obtain ⟨ring, earlier⟩ := fresh.exists_pushAll [(5, false)]
  have one : Published 2 [5] ring := fresh.pushAll earlier
  obtain ⟨ring₂, slot₂, pushed₂, two⟩ := one.exists_push 7 false
  obtain ⟨ring₃, slot₃, pushed₃, three⟩ := two.exists_push 8 false
  have tail₂ : ring₂.tail = 2 := two.tail
  have tail₃ : ring₃.tail = 3 := three.tail
  have polled : (MqSub.tryReadNew ⟨16, 0⟩ ring₂).2 = ⟨16, 1⟩ := by
    rw [MqSub.tryReadNew_of_lt _ (show 0 < ring₂.tail by omega)]
  have push : HistoryStep ⟨ring, ⟨16, 0⟩⟩ (some 7) ⟨ring₂, ⟨16, 0⟩⟩ := .push pushed₂
  have read : HistoryStep ⟨ring₂, ⟨16, 0⟩⟩ none ⟨ring₂, ⟨16, 1⟩⟩ := polled ▸ .tryReadNew
  have push' : HistoryStep ⟨ring₂, ⟨16, 1⟩⟩ (some 8) ⟨ring₃, ⟨16, 1⟩⟩ := .push pushed₃
  have run := ((Run.single push).snoc read).snoc push'
  have retained := (getAllPending_retained_iff (zeroed 0) (by decide) (by decide) earlier
    (by simp) run).mpr (show ring₃.tail - 1 ≤ 2 by omega)
  refine ⟨ring, _, earlier, run, retained.1.trans ?_⟩
  change [5, 7, 8].rtake (min (ring₃.tail - 1) 2) = [7, 8]
  rw [tail₃]
  rfl

/-- Seventeen messages pending on a ring of sixteen slots: all seventeen numbers are
answered. -/
theorem getAllPending_lapped : ∃ (ring : K4RingBuffer Nat) (t : Queue Nat),
    pushAll ((zeroed 0).init 16).1 ((List.range' 1 17).map fun message => (message, false)) =
      some ring ∧
    Run HistoryStep ⟨ring, ⟨16, 0⟩⟩ [] t ∧
    (t.sub.getAllPending t.ring).1 ≠ (List.range' 1 17).rtake
      (min (t.ring.tail - t.sub.currentIndex) 16) := by
  have fresh : Published 16 [] ((zeroed 0).init ((16 : Nat) : Int)).1 :=
    Published.init _ (by decide) (by decide)
  obtain ⟨ring, pushed⟩ := fresh.exists_pushAll
    ((List.range' 1 17).map fun message => (message, false))
  have published : Published 16 (List.range' 1 17) ring := fresh.pushAll pushed
  have tail : ring.tail = 17 := published.tail
  refine ⟨ring, ⟨ring, ⟨16, 0⟩⟩, pushed, .refl, fun same => ?_⟩
  have lengths := congrArg List.length same
  rw [MqSub.length_getAllPending, tail] at lengths
  change 17 = 16 at lengths
  omega

/-! ## Everything -/

/-- `get_all` never returns the retained messages: it answers for the number 0, and for all
numbers since the first. -/
theorem getAll_ne_retained (memory : K4RingBuffer τ) (two : 2 ≤ n) (int : n < 2147483648)
    {pushes : List (τ × Bool)} (pushed : pushAll (memory.init n).1 pushes = some ring)
    (sub : MqSub) :
    (sub.getAll ring).length = pushes.length + 1 ∧
    sub.getAll ring ≠ (pushes.map Prod.fst).rtake n := by
  have published := (Published.init memory two int).pushAll pushed
  have tail : ring.tail = pushes.length := by simpa using published.tail
  have length : (sub.getAll ring).length = pushes.length + 1 := by
    rw [MqSub.length_getAll, tail]
  refine ⟨length, fun same => ?_⟩
  have lengths := congrArg List.length same
  rw [length, List.rtake, List.length_drop, List.length_map] at lengths
  omega

/-- Three messages on a ring of two slots. -/
theorem getAll_ne_retained_one : ∃ ring : K4RingBuffer Nat,
    pushAll ((zeroed 0).init 2).1 [(7, false), (8, true), (9, false)] = some ring ∧
    (MqSub.getAll ⟨16, 0⟩ ring).length = 4 ∧ MqSub.getAll ⟨16, 0⟩ ring ≠ [7, 8, 9].rtake 2 := by
  have fresh : Published 2 [] ((zeroed 0).init ((2 : Nat) : Int)).1 :=
    Published.init _ (by decide) (by decide)
  obtain ⟨ring, pushed⟩ := fresh.exists_pushAll [((7 : Nat), false), (8, true), (9, false)]
  exact ⟨ring, pushed, getAll_ne_retained (zeroed 0) (by decide) (by decide) pushed ⟨16, 0⟩⟩

/-- Before the first message `get_all` returns the zero bytes of a slot. -/
theorem getAll_of_nothing :
    MqSub.getAll ⟨16, 0⟩ ((zeroed (0 : Nat)).init 16).1 = [0] ∧
    MqSub.getAll ⟨16, 0⟩ ((zeroed (0 : Nat)).init 16).1 ≠ ([] : List Nat).rtake 16 := by
  have slot : MqSub.getAll ⟨16, 0⟩ ((zeroed (0 : Nat)).init 16).1 = [0] := by
    rw [MqSub.getAll, MqSub.collect_eq_map]
    rfl
  refine ⟨slot, fun same => ?_⟩
  rw [slot] at same
  cases same

end RazorCrypto.Mq
