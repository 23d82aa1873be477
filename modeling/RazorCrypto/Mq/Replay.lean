import Mathlib.Data.List.Nodup
import RazorCrypto.Mq.History

/-!
# A subscriber as a reader of the log

The messages that were published make up a log, and a subscriber would be a cursor in it: it
reads on, reads all that is left, goes to a number that was published, or back to the beginning.
The ring keeps the last messages only and answers for every number. What the subscriber says is
what the cursor says exactly if each call comes in time; where the subscriber stands is always
the same.

The call of `skipMessage` is for the last number to leave out: the message of the next number is
read first. Pushes and calls come one after the other.
-/

universe u

namespace RazorCrypto.Mq

open K4RingBuffer

variable {τ : Type u} {n : Nat} {ring : K4RingBuffer τ}

/-- A call of a subscriber. -/
inductive Call
  | tryReadNew
  | getAllPending
  | getCurrent
  | getById (id : Nat)
  | skipMessage (index : Nat)
  | resetToBeginning

/-- What a call returns. A null pointer is `none`. -/
inductive Answer (τ : Type u)
  | message (data : Option τ)
  | messages (result : List τ)
  | sought (ok : Bool)
  | nothing

namespace MqSub

/-- `get_by_id`, which never returns a null pointer. -/
def getById (_sub : MqSub) (ring : K4RingBuffer τ) (id : Nat) : Option τ :=
  some (ring.getBySequence id)

/-- `get_current`. -/
def getCurrent (sub : MqSub) (ring : K4RingBuffer τ) : Option τ :=
  sub.getById ring ring.getCurSequence

/-- What a call returns, and the subscriber after it. -/
def answer (sub : MqSub) (ring : K4RingBuffer τ) : Call → Answer τ × MqSub
  | .tryReadNew => (sub.tryReadNew ring).map Answer.message id
  | .getAllPending => (sub.getAllPending ring).map Answer.messages id
  | .getCurrent => (.message (sub.getCurrent ring), sub)
  | .getById id => (.message (sub.getById ring id), sub)
  | .skipMessage index => (sub.skipMessage ring index).map Answer.sought id
  | .resetToBeginning => (.nothing, sub.resetToBeginning)

end MqSub

/-- The messages that were published, and the number of the last one that was read. -/
structure Log (τ : Type u) where
  messages : List τ
  cursor : Nat

namespace Log

def publish (log : Log τ) (data : τ) : Log τ := { log with messages := log.messages ++ [data] }

/-- The message of a number. The first number is 1. -/
def at? (log : Log τ) (number : Nat) : Option τ :=
  if number = 0 then none else log.messages[number - 1]?

/-- What a call means. -/
def answer (log : Log τ) : Call → Answer τ × Log τ
  | .tryReadNew =>
    if log.cursor < log.messages.length then
      (.message (log.at? (log.cursor + 1)), { log with cursor := log.cursor + 1 })
    else (.message none, log)
  | .getAllPending =>
    (.messages (log.messages.drop log.cursor), { log with cursor := log.messages.length })
  | .getCurrent => (.message log.messages.getLast?, log)
  | .getById id => (.message (log.at? id), log)
  | .skipMessage index =>
    if index ≤ log.messages.length then (.sought true, { log with cursor := index })
    else (.sought false, log)
  | .resetToBeginning => (.nothing, { log with cursor := 0 })

/-- The call asks for nothing that `n` slots do not have. -/
def InTime (n : Nat) (log : Log τ) : Call → Prop
  | .tryReadNew => log.messages.length - log.cursor ≤ n
  | .getAllPending => log.messages.length - log.cursor ≤ n
  | .getCurrent => log.messages ≠ []
  | .getById id => 1 ≤ id ∧ id ≤ log.messages.length ∧ log.messages.length - id < n
  | _ => True

end Log

/-- A completed push, or a call. -/
inductive Op (τ : Type u)
  | push (data : τ) (isSingleP : Bool)
  | call (c : Call)

/-- The answers of the calls, and the queue after them. -/
def Queue.serve (q : Queue τ) : List (Op τ) → Option (List (Answer τ) × Queue τ)
  | [] => some ([], q)
  | .push data isSingleP :: ops => do
    let (ring, _) ← q.ring.push data isSingleP
    Queue.serve { q with ring := ring } ops
  | .call c :: ops => do
    let (answers, last) ← Queue.serve { q with sub := (q.sub.answer q.ring c).2 } ops
    return ((q.sub.answer q.ring c).1 :: answers, last)

namespace Log

/-- The answers of the log. -/
def serve (log : Log τ) : List (Op τ) → List (Answer τ) × Log τ
  | [] => ([], log)
  | .push data _ :: ops => (log.publish data).serve ops
  | .call c :: ops =>
    let (answers, last) := (log.answer c).2.serve ops
    ((log.answer c).1 :: answers, last)

/-- Each call comes in time. -/
def AllInTime (n : Nat) (log : Log τ) : List (Op τ) → Prop
  | [] => True
  | .push data _ :: ops => (log.publish data).AllInTime n ops
  | .call c :: ops => log.InTime n c ∧ (log.answer c).2.AllInTime n ops

end Log

/-! ## One call -/

namespace Published

variable {messages : List τ} {id : Nat}

/-- Of different messages, a number is answered with its own only while it is kept. -/
theorem kept_of_own (h : Published n messages ring) (distinct : messages.Nodup) (first : 1 ≤ id)
    (published : id ≤ messages.length)
    (own : messages[id - 1]? = some (ring.getBySequence id)) : messages.length - id < n := by
  have newest := h.getBySequence first (h.tail.symm ▸ published)
  have same := (List.getElem?_inj (show id - 1 < messages.length by omega) distinct).mp
    (own.trans newest.symm)
  have laps : n * ((ring.tail - id) / n) = 0 := by omega
  have two := h.sized.two
  rw [h.tail] at laps
  obtain none | none := Nat.mul_eq_zero.mp laps
  · omega
  · exact (Nat.div_eq_zero_iff_lt (by omega)).mp none

end Published

/-- The subscriber of the queue stands where the cursor of the log does. -/
structure Follows (n : Nat) (log : Log τ) (q : Queue τ) : Prop where
  published : Published n log.messages q.ring
  index : q.sub.currentIndex = log.cursor
  cursor_le : log.cursor ≤ log.messages.length

variable {log : Log τ} {q : Queue τ} {c : Call} {id : Nat}

theorem Log.at?_succ (log : Log τ) (i : Nat) : log.at? (i + 1) = log.messages[i]? := rfl

namespace Follows

theorem at?_eq (h : Follows n log q) (first : 1 ≤ id) (published : id ≤ log.messages.length)
    (kept : log.messages.length - id < n) : log.at? id = some (q.ring.getBySequence id) := by
  have tail := h.published.tail
  rw [Log.at?, if_neg (by omega)]
  exact h.published.getBySequence_own first (by omega) (by omega)

theorem kept_of_at? (h : Follows n log q) (distinct : log.messages.Nodup)
    (own : log.at? id = some (q.ring.getBySequence id)) :
    1 ≤ id ∧ id ≤ log.messages.length ∧ log.messages.length - id < n := by
  rw [Log.at?] at own
  split at own
  · cases own
  · next pos =>
      obtain ⟨inside, -⟩ := List.getElem?_eq_some_iff.mp own
      have first : 1 ≤ id := by omega
      have published : id ≤ log.messages.length := by omega
      exact ⟨first, published, h.published.kept_of_own distinct first published own⟩

/-- A call moves the subscriber as it moves the cursor. -/
theorem answer (h : Follows n log q) (c : Call) :
    Follows n (log.answer c).2 { q with sub := (q.sub.answer q.ring c).2 } := by
  have tail := h.published.tail
  have index := h.index
  have cursor_le := h.cursor_le
  cases c with
  | tryReadNew =>
      by_cases new : log.cursor < log.messages.length
      · simp only [Log.answer, new, if_true, MqSub.answer, MqSub.tryReadNew, getCurSequence, tail,
          index]
        exact ⟨h.published, rfl, new⟩
      · simp only [Log.answer, new, if_false, MqSub.answer, MqSub.tryReadNew, getCurSequence, tail,
          index]
        exact h
  | getAllPending =>
      refine ⟨h.published, ?_, Nat.le_refl _⟩
      exact (MqSub.getAllPending_currentIndex (by omega)).trans tail
  | getCurrent => exact h
  | getById id => exact h
  | skipMessage number =>
      by_cases beyond : log.messages.length < number
      · simp only [Log.answer, Nat.not_le.mpr beyond, if_false, MqSub.answer, MqSub.skipMessage,
          getCurSequence, tail, beyond, if_true]
        exact h
      · simp only [Log.answer, Nat.le_of_not_lt beyond, if_true, MqSub.answer, MqSub.skipMessage,
          getCurSequence, tail, beyond, if_false]
        exact ⟨h.published, rfl, Nat.le_of_not_lt beyond⟩
  | resetToBeginning => exact ⟨h.published, rfl, Nat.zero_le _⟩

/-- A call that comes in time has the answer of the log. -/
theorem answer_eq (h : Follows n log q) (timely : log.InTime n c) :
    (q.sub.answer q.ring c).1 = (log.answer c).1 := by
  have tail := h.published.tail
  have index := h.index
  have cursor_le := h.cursor_le
  cases c with
  | tryReadNew =>
      change log.messages.length - log.cursor ≤ n at timely
      by_cases new : log.cursor < log.messages.length
      · have own := h.at?_eq (Nat.le_add_left 1 log.cursor) new (by omega)
        simp only [Log.answer, new, if_true, MqSub.answer, MqSub.tryReadNew, getCurSequence, tail,
          index, own]
        rfl
      · simp only [Log.answer, new, if_false, MqSub.answer, MqSub.tryReadNew, getCurSequence, tail,
          index]
        rfl
  | getAllPending =>
      change log.messages.length - log.cursor ≤ n at timely
      have pending : (q.sub.getAllPending q.ring).1 = log.messages.drop log.cursor := by
        by_cases none : log.cursor = log.messages.length
        · simp [MqSub.getAllPending, getCurSequence, tail, index, none]
        · have more : ¬log.cursor ≥ log.messages.length := by omega
          have kept : q.ring.tail - log.cursor ≤ n := by omega
          have collected := h.published.collect kept
          rw [tail] at collected
          simpa [MqSub.getAllPending, getCurSequence, tail, index, more] using collected
      exact congrArg Answer.messages pending
  | getCurrent =>
      have pos : 0 < log.messages.length := List.length_pos_iff.mpr timely
      have two := h.published.sized.two
      have own := h.at?_eq pos (Nat.le_refl _) (by omega)
      rw [Log.at?, if_neg (by omega), ← List.getLast?_eq_getElem?] at own
      refine congrArg Answer.message ?_
      rw [own, MqSub.getCurrent, MqSub.getById, getCurSequence, tail]
  | getById id =>
      obtain ⟨first, published, kept⟩ := timely
      exact congrArg Answer.message (h.at?_eq first published kept).symm
  | skipMessage number =>
      by_cases inside : number ≤ log.messages.length
      · simp only [Log.answer, inside, if_true, MqSub.answer, MqSub.skipMessage, getCurSequence,
          tail, Nat.not_lt.mpr inside, if_false]
        rfl
      · simp only [Log.answer, inside, if_false, MqSub.answer, MqSub.skipMessage, getCurSequence,
          tail, Nat.lt_of_not_le inside, if_true]
        rfl
  | resetToBeginning => rfl

/-- Of different messages, a call has the answer of the log only in time. -/
theorem inTime_of_answer_eq (h : Follows n log q) (distinct : log.messages.Nodup)
    (same : (q.sub.answer q.ring c).1 = (log.answer c).1) : log.InTime n c := by
  have tail := h.published.tail
  have index := h.index
  have cursor_le := h.cursor_le
  cases c with
  | tryReadNew =>
      show log.messages.length - log.cursor ≤ n
      by_cases new : log.cursor < log.messages.length
      · simp only [Log.answer, new, if_true, MqSub.answer, MqSub.tryReadNew, getCurSequence, tail,
          index] at same
        obtain ⟨-, -, kept⟩ := h.kept_of_at? distinct (Answer.message.inj same).symm
        omega
      · omega
  | getAllPending =>
      show log.messages.length - log.cursor ≤ n
      by_cases new : log.cursor < log.messages.length
      · have pending : (q.sub.getAllPending q.ring).1 = log.messages.drop log.cursor :=
          Answer.messages.inj same
        -- the first number that is pending is enough
        have first := congrArg List.head? pending
        rw [MqSub.getAllPending, getCurSequence, tail, index, if_neg (by omega), MqSub.collect,
          if_pos (by omega), List.head?_drop, ← log.at?_succ] at first
        obtain ⟨-, -, kept⟩ := h.kept_of_at? distinct first.symm
        omega
      · omega
  | getCurrent =>
      intro none
      have last := Answer.message.inj same
      rw [none, List.getLast?_nil] at last
      cases last
  | getById id => exact h.kept_of_at? distinct (Answer.message.inj same).symm
  | skipMessage number => trivial
  | resetToBeginning => trivial

/-- A push that returns. -/
theorem push (h : Follows n log q) {data : τ} {isSingleP : Bool} {ring : K4RingBuffer τ}
    {slot : Nat} (pushed : q.ring.push data isSingleP = some (ring, slot)) :
    Follows n (log.publish data) { q with ring := ring } := by
  refine ⟨h.published.push pushed, h.index, h.cursor_le.trans ?_⟩
  rw [Log.publish, List.length_append]
  exact Nat.le_add_right _ _

end Follows

/-! ## Whole runs -/

theorem Log.answer_messages (log : Log τ) (c : Call) :
    (log.answer c).2.messages = log.messages := by
  cases c <;> simp only [Log.answer] <;> split <;> rfl

/-- What is in the log stays. -/
theorem Log.serve_messages (log : Log τ) (ops : List (Op τ)) :
    log.messages <+: (log.serve ops).2.messages := by
  induction ops generalizing log with
  | nil => exact List.prefix_refl _
  | cons op ops ih =>
      cases op with
      | push data isSingleP => exact (List.prefix_append _ _).trans (ih (log.publish data))
      | call c =>
          have later := ih (log.answer c).2
          rwa [log.answer_messages] at later

/-- The calls all return, the subscriber stands where the cursor does, and its answers are those
of the log if all calls come in time; only then, if the messages are different. -/
theorem Follows.serve (h : Follows n log q) (ops : List (Op τ)) :
    ∃ answers q', q.serve ops = some (answers, q') ∧ Follows n (log.serve ops).2 q' ∧
      (log.AllInTime n ops → answers = (log.serve ops).1) ∧
      ((log.serve ops).2.messages.Nodup → answers = (log.serve ops).1 → log.AllInTime n ops) := by
  induction ops generalizing log q with
  | nil => exact ⟨[], q, rfl, h, fun _ => rfl, fun _ _ => trivial⟩
  | cons op ops ih =>
      cases op with
      | push data isSingleP =>
          have quiet := h.published.head.trans h.published.tail.symm
          have pushed := push_of_quiet quiet data isSingleP
          obtain ⟨answers, q', served, rest⟩ := ih (h.push pushed)
          refine ⟨answers, q', ?_, rest⟩
          rw [Queue.serve, pushed]
          exact served
      | call c =>
          obtain ⟨answers, q', served, follows, timely, only⟩ := ih (h.answer c)
          refine ⟨(q.sub.answer q.ring c).1 :: answers, q', ?_, follows, ?_, ?_⟩
          · rw [Queue.serve, served]
            rfl
          · rintro ⟨now, later⟩
            exact congrArg₂ List.cons (h.answer_eq now) (timely later)
          · intro distinct same
            obtain ⟨now, later⟩ := List.cons.inj same
            have stays := (log.answer c).2.serve_messages ops
            rw [log.answer_messages] at stays
            have before : log.messages.Nodup := distinct.sublist stays.sublist
            exact ⟨h.inTime_of_answer_eq before now, only distinct later⟩

/-- On a ring to which messages were pushed before, a subscriber that starts at a published
number is a cursor in the log of all messages. Each run of pushes and calls returns and leaves the
subscriber where the cursor is. If no call asks for more than the ring keeps, the answers are those
of the log, and if all messages are different, only then. -/
theorem serve_log_iff (memory : K4RingBuffer τ) (two : 2 ≤ n) (int : n < 2147483648)
    {before : List (τ × Bool)} (pushed : pushAll (memory.init n).1 before = some ring)
    {sub : MqSub} (index_le : sub.currentIndex ≤ ring.tail) (ops : List (Op τ)) :
    let log : Log τ := ⟨before.map Prod.fst, sub.currentIndex⟩
    ∃ answers q, Queue.serve ⟨ring, sub⟩ ops = some (answers, q) ∧
      q.sub.currentIndex = (log.serve ops).2.cursor ∧
      q.sub.currentIndex ≤ q.ring.tail ∧
      (log.AllInTime n ops → answers = (log.serve ops).1) ∧
      ((log.serve ops).2.messages.Nodup → answers = (log.serve ops).1 → log.AllInTime n ops) := by
  intro log
  have published := (Published.init memory two int).pushAll pushed
  rw [List.nil_append] at published
  have start : Follows n log ⟨ring, sub⟩ := ⟨published, rfl, published.tail ▸ index_le⟩
  obtain ⟨answers, q, served, follows, exact_⟩ := start.serve ops
  refine ⟨answers, q, served, follows.index, ?_, exact_⟩
  rw [follows.index, follows.published.tail]
  exact follows.cursor_le

/-- Two messages, and a subscriber that goes to the first. It is handed the second. -/
def skipping : List (Op Nat) :=
  [.push 7 false, .push 8 true, .call (.skipMessage 1), .call .tryReadNew]

theorem serve_log_iff_skipping : ∃ q,
    Queue.serve ⟨((zeroed 0).init (2 : Nat)).1, ⟨16, 0⟩⟩ skipping =
      some ([.sought true, .message (some 8)], q) := by
  have none : pushAll ((zeroed 0).init (2 : Nat)).1 [] = some ((zeroed 0).init (2 : Nat)).1 := rfl
  have start : (⟨16, 0⟩ : MqSub).currentIndex ≤ ((zeroed 0).init (2 : Nat)).1.tail := Nat.zero_le _
  obtain ⟨answers, q, served, -, -, timely, -⟩ :=
    serve_log_iff (zeroed 0) (Nat.le_refl 2) (by decide) none start skipping
  have inTime : Log.AllInTime 2 ⟨[], 0⟩ skipping := ⟨trivial, Nat.le_succ 1, trivial⟩
  rw [timely inTime] at served
  exact ⟨q, served⟩

end RazorCrypto.Mq
