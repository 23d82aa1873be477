import Mathlib.Data.List.GetD
import Mathlib.Data.List.Induction
import RazorCrypto.Foundation.FlatMemory
import RazorCrypto.Foundation.Transition

/-!
# What a read hands on

`async_read` appends a message to `buffer_`, piece by piece, and `on_read` is told how many bytes
it appended. `on_read` copies all of the buffer, whatever the number, into a block of that many
bytes and one more, and empties the buffer. A read that fails leaves there what it had appended,
and `re_connect` makes a new stream but keeps the buffer.

A read ends before the next one begins. The segments of the buffer can be laid out anew by each
read. Left out are the cast of the sizes to `int` and what the allocator does.
-/

namespace RazorCrypto.Ws.Reading

open FlatMemory Transition

/-- The bytes of a segment, by their index. -/
def source (bytes : List UInt8) (i : Nat) : UInt8 := bytes.getD i 0

/-- A turn of the loop over the segments: the memory, and `total_len`. -/
def copySegment (c : (Nat → UInt8) × Nat) (segment : List UInt8) : (Nat → UInt8) × Nat :=
  (copy c.1 c.2 (source segment) segment.length, c.2 + segment.length)

/-- What `on_data_ready` is given: the memory from the start of the block on, and `total_len`. -/
structure Handed where
  memory : Nat → UInt8
  totalLen : Nat

/-- The block of `recv_len + 1` zero bytes, and the heap behind it. -/
def newBlock (heap : Nat → UInt8) (recvLen : Nat) (i : Nat) : UInt8 :=
  if i < recvLen + 1 then 0 else heap i

/-- `on_read` up to its call of `on_data_ready`. -/
def onRead (heap : Nat → UInt8) (recvLen : Nat) (segments : List (List UInt8)) : Handed :=
  let (memory, totalLen) := segments.foldl copySegment (newBlock heap recvLen, 0)
  ⟨memory, totalLen⟩

/-- The bytes that the callback reads. -/
def Handed.payload (h : Handed) : List UInt8 := (List.range h.totalLen).map h.memory

/-- A read that fails, or that completes a message; with the bytes that it appended. -/
inductive Event
  | failed (bytes : List UInt8)
  | completed (bytes : List UInt8) (heap : Nat → UInt8) (handed : Handed)

/-- The segments of `buffer_`, from one read to the next. -/
inductive Step : List (List UInt8) → Event → List (List UInt8) → Prop
  | failed {buffer segments bytes} (appended : segments.flatten = buffer.flatten ++ bytes) :
      Step buffer (.failed bytes) segments
  | completed {buffer segments bytes heap}
      (appended : segments.flatten = buffer.flatten ++ bytes) :
      Step buffer (.completed bytes heap (onRead heap bytes.length segments)) []

/-- What the reads that failed since the last completed one have left. -/
def leftover : List Event → List UInt8 := List.foldl (fun left e =>
  match e with
  | .failed bytes => left ++ bytes
  | .completed .. => []) []

/-! ## The copy -/

variable {memory heap : Nat → UInt8} {start recvLen i : Nat} {bytes : List UInt8}

theorem source_append (first second : List UInt8) (i : Nat) : source (first ++ second) i =
    if i < first.length then source first i else source second (i - first.length) := by
  rw [source]
  split
  · next inside => exact List.getD_append _ _ _ _ inside
  · next beyond => exact List.getD_append_right _ _ _ _ (by omega)

/-- Copying one segment behind the other copies them all. -/
theorem foldl_copySegment (segments : List (List UInt8)) (c : (Nat → UInt8) × Nat) :
    segments.foldl copySegment c =
      (copy c.1 c.2 (source segments.flatten) segments.flatten.length,
        c.2 + segments.flatten.length) := by
  induction segments generalizing c with
  | nil =>
      refine Prod.ext ?_ rfl
      funext i
      exact (copy_of_outside (by simp; omega)).symm
  | cons segment segments ih =>
      rw [List.foldl_cons, ih, copySegment, copy_copy, List.flatten_cons, List.length_append,
        Nat.add_assoc]
      exact Prod.ext (copy_congr fun i _ => (source_append segment segments.flatten i).symm) rfl

theorem onRead_eq (heap : Nat → UInt8) (recvLen : Nat) (segments : List (List UInt8)) :
    onRead heap recvLen segments =
      ⟨copy (newBlock heap recvLen) 0 (source segments.flatten) segments.flatten.length,
        segments.flatten.length⟩ := by
  simp [onRead, foldl_copySegment]

theorem payload_onRead (heap : Nat → UInt8) (recvLen : Nat) (segments : List (List UInt8)) :
    (onRead heap recvLen segments).payload = segments.flatten := by
  rw [onRead_eq, Handed.payload]
  apply List.ext_getElem
  · simp
  · intro i inside inside'
    have copied : copy (newBlock heap recvLen) 0 (source segments.flatten)
        segments.flatten.length (0 + i) = source segments.flatten i := copy_inside inside'
    rw [Nat.zero_add] at copied
    simp only [List.getElem_map, List.getElem_range, copied]
    exact List.getD_eq_getElem _ _ inside'

/-- Behind its block the copy overwrites what the segments have beyond it. -/
theorem memory_onRead (heap : Nat → UInt8) (segments : List (List UInt8)) (beyond : recvLen < i) :
    (onRead heap recvLen segments).memory i =
      if i < segments.flatten.length then source segments.flatten i else heap i := by
  rw [onRead_eq]
  by_cases inside : i < segments.flatten.length
  · have copied : copy (newBlock heap recvLen) 0 (source segments.flatten)
        segments.flatten.length (0 + i) = source segments.flatten i := copy_inside inside
    rw [if_pos inside, ← copied, Nat.zero_add]
  · rw [if_neg inside]
    refine (copy_of_outside (by omega)).trans ?_
    rw [newBlock, if_neg (by omega)]

/-! ## Runs -/

variable {events before after : List Event} {buffer : List (List UInt8)} {handed : Handed}

@[simp] theorem leftover_failed (events : List Event) (bytes : List UInt8) :
    leftover (events ++ [.failed bytes]) = leftover events ++ bytes := by
  simp [leftover]

@[simp] theorem leftover_completed (events : List Event) (bytes : List UInt8)
    (heap : Nat → UInt8) (handed : Handed) :
    leftover (events ++ [.completed bytes heap handed]) = [] := by
  simp [leftover]

/-- The buffer has what is left, and what was handed on has what was left before it. -/
structure Reads (events : List Event) (buffer : List (List UInt8)) : Prop where
  left : buffer.flatten = leftover events
  handed : ∀ before bytes heap handed after,
    events = before ++ .completed bytes heap handed :: after →
      ∃ segments, segments.flatten = leftover before ++ bytes ∧
        handed = onRead heap bytes.length segments

theorem Reads.of_run (run : Run Step [] events buffer) : Reads events buffer := by
  refine run.invariant (I := Reads) ⟨rfl, by simp⟩ ?_
  intro es s e t h taken
  cases taken with
  | failed appended =>
      refine ⟨by rw [appended, h.left, leftover_failed], ?_⟩
      intro before bytes heap handed after split
      obtain ⟨-, -, last⟩ | ⟨rest, -, earlier⟩ := concat_eq_split split
      · cases last
      · exact h.handed before bytes heap handed rest earlier
  | completed appended =>
      refine ⟨by rw [leftover_completed, List.flatten_nil], ?_⟩
      intro before bytes heap handed after split
      obtain ⟨-, rfl, last⟩ | ⟨rest, -, earlier⟩ := concat_eq_split split
      · cases last
        exact ⟨_, by rw [appended, h.left], rfl⟩
      · exact h.handed before bytes heap handed rest earlier

/-- The callback is given the message, with a zero byte behind it, and the heap is left alone. -/
structure Handed.Faithful (handed : Handed) (heap : Nat → UInt8) (bytes : List UInt8) : Prop where
  payload : handed.payload = bytes
  terminated : handed.memory bytes.length = 0
  heap : ∀ i, bytes.length < i → handed.memory i = heap i

theorem faithful_onRead (segments : List (List UInt8)) (same : segments.flatten = bytes) :
    (onRead heap bytes.length segments).Faithful heap bytes := by
  refine ⟨(payload_onRead ..).trans same, ?_, fun i beyond => ?_⟩
  · rw [onRead_eq, same]
    refine (copy_of_outside (by omega)).trans ?_
    rw [newBlock, if_pos (by omega)]
  · rw [memory_onRead heap segments beyond, same, if_neg (by omega)]

/-- Nothing is left if the failed reads had appended nothing. -/
theorem leftover_eq_nil (empty : ∀ bytes, .failed bytes ∈ events → bytes = []) :
    leftover events = [] := by
  induction events using List.reverseRecOn with
  | nil => rfl
  | append_singleton events e ih =>
      cases e with
      | failed bytes =>
          rw [leftover_failed, ih fun bytes earlier => empty bytes (by simp [earlier]),
            empty bytes (by simp)]
          rfl
      | completed bytes heap handed => exact leftover_completed ..

/-- What is left at the first message after a failed read. -/
theorem exists_leftover (before : List Event) (bytes : List UInt8)
    (later : ∃ b heap handed, Event.completed b heap handed ∈ after) :
    ∃ between b heap handed rest, after = between ++ .completed b heap handed :: rest ∧
      ∃ more, leftover (before ++ .failed bytes :: between) = leftover before ++ bytes ++ more := by
  induction after generalizing before bytes with
  | nil => simp at later
  | cons e after ih =>
      cases e with
      | completed b heap handed =>
          exact ⟨[], b, heap, handed, after, rfl, [], by simp⟩
      | failed bytes' =>
          obtain ⟨b, heap, handed, member⟩ := later
          have member : .completed b heap handed ∈ after := by simpa using member
          obtain ⟨between, b, heap, handed, rest, rfl, more, left⟩ :=
            ih (before ++ [.failed bytes]) bytes' ⟨b, heap, handed, member⟩
          refine ⟨.failed bytes' :: between, b, heap, handed, rest, rfl, bytes' ++ more, ?_⟩
          simpa using left

/-- In every run: the callback is given what the failed reads since the last message have left,
and then the message; what has no room in the block is written behind it. All messages are handed
on faithfully exactly if no read that fails before another message has appended anything. -/
theorem reads_iff (run : Run Step [] events buffer) :
    (∀ before bytes heap handed after,
      events = before ++ .completed bytes heap handed :: after →
        handed.payload = leftover before ++ bytes ∧
        ∀ i, bytes.length < i → handed.memory i =
          if i < (leftover before ++ bytes).length then source (leftover before ++ bytes) i
          else heap i) ∧
    ((∀ bytes heap handed, .completed bytes heap handed ∈ events →
        handed.Faithful heap bytes) ↔
      ∀ before bytes after, events = before ++ .failed bytes :: after →
        (∃ b heap handed, .completed b heap handed ∈ after) → bytes = []) := by
  have reads := Reads.of_run run
  refine ⟨?_, fun faithful before bytes after split later => ?_, ?_⟩
  · intro before bytes heap handed after split
    obtain ⟨segments, same, rfl⟩ := reads.handed before bytes heap handed after split
    refine ⟨(payload_onRead ..).trans same, fun i beyond => ?_⟩
    rw [memory_onRead heap segments beyond, same]
  · obtain ⟨between, b, heap, handed, rest, rfl, more, left⟩ :=
      exists_leftover before bytes later
    have whole : events =
        (before ++ .failed bytes :: between) ++ .completed b heap handed :: rest := by
      rw [split, List.append_assoc, List.cons_append]
    obtain ⟨segments, same, rfl⟩ := reads.handed _ b heap handed rest whole
    have payload := (faithful b heap (onRead heap b.length segments) (by simp [whole])).payload
    rw [payload_onRead, same, left, List.append_left_eq_self] at payload
    simp only [List.append_eq_nil_iff] at payload
    exact payload.1.2
  · intro empty bytes heap handed member
    obtain ⟨before, after, split⟩ := List.append_of_mem member
    obtain ⟨segments, same, rfl⟩ := reads.handed before bytes heap handed after split
    have none : leftover before = [] := by
      apply leftover_eq_nil
      intro failed earlier
      obtain ⟨first, second, rfl⟩ := List.append_of_mem earlier
      have whole : events = first ++ .failed failed ::
          (second ++ .completed bytes heap (onRead heap bytes.length segments) :: after) := by
        rw [split, List.append_assoc, List.cons_append]
      exact empty first failed _ whole ⟨bytes, heap, onRead heap bytes.length segments, by simp⟩
    rw [none, List.nil_append] at same
    exact faithful_onRead segments same

/-- A read that fails after two bytes of its message, and one that completes a message of one. -/
def torn (heap : Nat → UInt8) : List Event :=
  [.failed [7, 7], .completed [8] heap (onRead heap 1 [[7, 7], [8]])]

theorem run_torn (heap : Nat → UInt8) : Run Step [] (torn heap) [] := by
  have failed : Step [] (.failed [7, 7]) [[7, 7]] := .failed rfl
  exact (Run.single failed).snoc (.completed rfl)

/-- The callback gets three bytes, and the third is behind the block of two. -/
theorem reads_iff_torn : (onRead (fun _ => 0) 1 [[7, 7], [8]]).payload = [7, 7, 8] ∧
    (onRead (fun _ => 0) 1 [[7, 7], [8]]).memory 2 = 8 := by
  obtain ⟨given, -⟩ := reads_iff (run_torn fun _ => 0)
  obtain ⟨payload, memory⟩ := given [.failed [7, 7]] [8] _ _ [] rfl
  exact ⟨payload, memory 2 (by decide)⟩

end RazorCrypto.Ws.Reading
