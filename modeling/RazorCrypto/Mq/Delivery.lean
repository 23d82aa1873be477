import RazorCrypto.Foundation.SlotRing
import RazorCrypto.Foundation.Transition
import RazorCrypto.Mq.Endpoints

/-!
# What a subscriber is handed

A subscriber polls the ring with `try_read_new` while messages are pushed, each push
complete before the next step. The ring keeps the last `n` messages (`Published`). Nothing
tells a subscriber that it has been lapped: a message that is overwritten is silently
replaced by the newest one in its slot.
-/

universe u

namespace RazorCrypto.Mq

open K4RingBuffer SlotRing Transition

variable {τ : Type u} {n : Nat} {messages : List τ} {ring ring' : K4RingBuffer τ}

/-- A ring without claims and the messages that were pushed, the last `n` in their slots. -/
structure Published (n : Nat) (messages : List τ) (ring : K4RingBuffer τ) : Prop where
  sized : Sized n ring
  head : ring.head = messages.length
  tail : ring.tail = messages.length
  kept : Holds n 1 ring.ring messages (messages.length - n)

namespace Published

theorem init (memory : K4RingBuffer τ) (two : 2 ≤ n) (int : n < 2147483648) :
    Published n [] (memory.init n).1 := by
  obtain ⟨head, tail⟩ := init_counters memory (show 1 < (n : Int) by omega)
  exact ⟨init_sized two int, head, tail, Holds.nil⟩

theorem push (h : Published n messages ring) {data : τ} {isSingleP : Bool} {slot : Nat}
    (pushed : ring.push data isSingleP = some (ring', slot)) :
    Published n (messages ++ [data]) ring' := by
  rw [push_of_quiet (h.head.trans h.tail.symm)] at pushed
  cases pushed
  have count : ring.tail + 1 = (messages ++ [data]).length := by
    rw [List.length_append, h.tail]
    rfl
  refine ⟨⟨h.sized.two, h.sized.int, h.sized.ringSize, h.sized.indexMode⟩, count, count, ?_⟩
  rw [h.sized.sequenceIndex, ← count, h.tail]
  exact h.kept.push data

/-- The newest of the messages that went into the slot of `index`. -/
theorem getBySequence (h : Published n messages ring) {index : Nat} (first : 1 ≤ index)
    (published : index ≤ ring.tail) :
    messages[index + n * ((ring.tail - index) / n) - 1]? = some (ring.getBySequence index) := by
  have two := h.sized.two
  have tail := h.tail
  have laps := Nat.div_add_mod (ring.tail - index) n
  have part : (ring.tail - index) % n < n := Nat.mod_lt _ (by omega)
  have inside : index + n * ((ring.tail - index) / n) - 1 < messages.length := by omega
  rw [List.getElem?_eq_getElem inside, K4RingBuffer.getBySequence, h.sized.sequenceIndex,
    ← h.kept _ inside (by omega), Nat.sub_add_cancel (by omega), Nat.add_mul_mod_self_left]

end Published

/-- Push messages one after the other, each with its flag. -/
def pushAll (ring : K4RingBuffer τ) : List (τ × Bool) → Option (K4RingBuffer τ)
  | [] => some ring
  | (data, isSingleP) :: pushes =>
      match ring.push data isSingleP with
      | none => none
      | some (ring, _) => pushAll ring pushes

theorem Published.pushAll (h : Published n messages ring) {pushes : List (τ × Bool)}
    (pushed : Mq.pushAll ring pushes = some ring') :
    Published n (messages ++ pushes.map Prod.fst) ring' := by
  induction pushes generalizing ring messages with
  | nil =>
      cases pushed
      simpa using h
  | cons first pushes ih =>
      obtain ⟨data, isSingleP⟩ := first
      rw [Mq.pushAll] at pushed
      cases returned : ring.push data isSingleP with
      | none =>
          rw [returned] at pushed
          cases pushed
      | some result =>
          rw [returned] at pushed
          have rest := ih (h.push returned) pushed
          simpa using rest

/-- A push without others returns. -/
theorem Published.exists_push (h : Published n messages ring) (data : τ) (isSingleP : Bool) :
    ∃ ring' slot, ring.push data isSingleP = some (ring', slot) ∧
      Published n (messages ++ [data]) ring' := by
  have returned := push_of_quiet (h.head.trans h.tail.symm) data isSingleP
  exact ⟨_, _, returned, h.push returned⟩

/-- Pushes one after the other all return. -/
theorem Published.exists_pushAll (h : Published n messages ring) (pushes : List (τ × Bool)) :
    ∃ ring', Mq.pushAll ring pushes = some ring' := by
  induction pushes generalizing ring messages with
  | nil => exact ⟨ring, rfl⟩
  | cons first pushes ih =>
      obtain ⟨data, isSingleP⟩ := first
      obtain ⟨next, slot, returned, published⟩ := h.exists_push data isSingleP
      obtain ⟨last, rest⟩ := ih published
      rw [Mq.pushAll, returned]
      exact ⟨last, rest⟩

/-! ## A subscriber polling -/

/-- A message handed out: the sequence number of the ring, the new `m_current_index` and
the message. -/
structure Reading (τ : Type u) where
  tail : Nat
  index : Nat
  message : τ

/-- The subscriber was at most one lap behind. -/
def Reading.Timely (n : Nat) (reading : Reading τ) : Prop := reading.tail - (reading.index - 1) ≤ n

/-- What happens on the queue. -/
inductive QueueEvent (τ : Type u)
  | push (data : τ)
  | empty
  | read (reading : Reading τ)

/-- The ring and one subscriber. -/
structure Queue (τ : Type u) where
  ring : K4RingBuffer τ
  sub : MqSub

/-- A completed push or a call of `try_read_new`. -/
inductive QueueStep : Queue τ → QueueEvent τ → Queue τ → Prop
  | push {s data isSingleP ring slot}
      (pushed : s.ring.push data isSingleP = some (ring, slot)) :
      QueueStep s (.push data) { s with ring := ring }
  | empty {s sub} (nothing : s.sub.tryReadNew s.ring = (none, sub)) :
      QueueStep s .empty { s with sub := sub }
  | read {s message sub} (handed : s.sub.tryReadNew s.ring = (some message, sub)) :
      QueueStep s (.read ⟨s.ring.tail, sub.currentIndex, message⟩) { s with sub := sub }

/-- The messages pushed in a run, in order. -/
def pushes (events : List (QueueEvent τ)) : List τ :=
  events.filterMap fun
    | .push data => some data
    | _ => none

/-- The messages handed out in a run, in order. -/
def readings (events : List (QueueEvent τ)) : List (Reading τ) :=
  events.filterMap fun
    | .read reading => some reading
    | _ => none

/-- What `try_read_new` does when there is a message. -/
theorem MqSub.tryReadNew_of_lt (sub : MqSub) (new : sub.currentIndex < ring.tail) :
    sub.tryReadNew ring = (some (ring.getBySequence (sub.currentIndex + 1)),
      { sub with currentIndex := sub.currentIndex + 1 }) := by
  rw [tryReadNew, getCurSequence, if_pos new]

theorem MqSub.tryReadNew_eq_some {sub sub' : MqSub} {message : τ}
    (handed : sub.tryReadNew ring = (some message, sub')) :
    sub.currentIndex < ring.tail ∧ sub'.currentIndex = sub.currentIndex + 1 ∧
      message = ring.getBySequence (sub.currentIndex + 1) := by
  by_cases new : sub.currentIndex < ring.tail
  · rw [tryReadNew_of_lt sub new] at handed
    cases handed
    exact ⟨new, rfl, rfl⟩
  · rw [tryReadNew, getCurSequence, if_neg new] at handed
    cases handed

theorem MqSub.tryReadNew_eq_none {sub sub' : MqSub}
    (nothing : sub.tryReadNew ring = (none, sub')) : sub' = sub := by
  by_cases new : sub.currentIndex < ring.tail
  · rw [tryReadNew_of_lt sub new] at nothing
    cases nothing
  · rw [tryReadNew, getCurSequence, if_neg new] at nothing
    cases nothing
    rfl

/-- The number of the message that a reading hands out: the last one up to `tail` in the
slot of `index`. -/
def Reading.origin (n : Nat) (reading : Reading τ) : Nat :=
  reading.index + n * ((reading.tail - reading.index) / n)

theorem Reading.origin_eq_index_iff {reading : Reading τ} (pos : 0 < n)
    (first : 1 ≤ reading.index) (published : reading.index ≤ reading.tail) :
    reading.origin n = reading.index ↔ reading.Timely n := by
  have lap : (reading.tail - reading.index) / n = 0 ↔ reading.tail - reading.index < n :=
    Nat.div_eq_zero_iff_lt pos
  have same : reading.origin n = reading.index ↔ (reading.tail - reading.index) / n = 0 := by
    rw [origin, Nat.add_eq_left, Nat.mul_eq_zero]
    omega
  rw [same, lap, Timely]
  omega

/-- What a run of pushes and polls keeps, with the messages pushed so far. -/
structure Handed (n : Nat) (messages : List τ) (readings : List (Reading τ)) (s : Queue τ) :
    Prop where
  published : Published n messages s.ring
  index_le : s.sub.currentIndex ≤ s.ring.tail
  increasing : readings.Pairwise fun earlier later => earlier.index < later.index
  below : ∀ reading ∈ readings, reading.index ≤ s.sub.currentIndex
  range : ∀ reading ∈ readings, 1 ≤ reading.index ∧ reading.index ≤ reading.tail
  message : ∀ reading ∈ readings, messages[reading.origin n - 1]? = some reading.message
  inside : ∀ reading ∈ readings, reading.index ≤ messages.length

variable {received : List (Reading τ)} {s t : Queue τ} {e : QueueEvent τ}

namespace Handed

/-- A further message leaves what was handed out as it is. -/
theorem push (h : Handed n messages received s) {data : τ} {isSingleP : Bool} {slot : Nat}
    (pushed : s.ring.push data isSingleP = some (ring, slot)) :
    Handed n (messages ++ [data]) received { s with ring := ring } := by
  have published := h.published.push pushed
  have longer : messages.length ≤ (messages ++ [data]).length := by
    rw [List.length_append]
    exact Nat.le_add_right _ _
  refine ⟨published, ?_, h.increasing, h.below, h.range, ?_, ?_⟩
  · change s.sub.currentIndex ≤ ring.tail
    rw [published.tail]
    exact (h.index_le.trans h.published.tail.le).trans longer
  · intro reading handed
    have old := h.message reading handed
    obtain ⟨inside, -⟩ := List.getElem?_eq_some_iff.mp old
    rw [List.getElem?_append_left inside, old]
  · intro reading handed
    exact (h.inside reading handed).trans longer

/-- A reading has the next index and the newest message of its slot. -/
theorem read (h : Handed n messages received s) {message : τ} {sub : MqSub}
    (handed : s.sub.tryReadNew s.ring = (some message, sub)) :
    Handed n messages (received ++ [⟨s.ring.tail, sub.currentIndex, message⟩])
      { s with sub := sub } := by
  obtain ⟨new, next, value⟩ := MqSub.tryReadNew_eq_some handed
  have first : 1 ≤ s.sub.currentIndex + 1 := Nat.le_add_left ..
  have last : ∀ {motive : Reading τ → Prop}, (∀ reading ∈ received, motive reading) →
      motive ⟨s.ring.tail, sub.currentIndex, message⟩ →
      ∀ reading ∈ received ++ [⟨s.ring.tail, sub.currentIndex, message⟩], motive reading :=
    fun old new => List.forall_mem_append.mpr ⟨old, List.forall_mem_singleton.mpr new⟩
  refine ⟨h.published, ?_, ?_, ?_, ?_, ?_, ?_⟩
  · change sub.currentIndex ≤ s.ring.tail
    omega
  · rw [List.pairwise_append]
    refine ⟨h.increasing, List.pairwise_singleton .., ?_⟩
    intro earlier old
    have below := h.below earlier old
    refine List.forall_mem_singleton.mpr ?_
    dsimp only
    omega
  · refine last (fun reading old => ?_) (Nat.le_refl _)
    exact (h.below reading old).trans (by dsimp only; omega)
  · refine last h.range ?_
    dsimp only
    omega
  · refine last h.message ?_
    rw [Reading.origin, next, value]
    exact h.published.getBySequence first new
  · refine last h.inside ?_
    have tail := h.published.tail
    dsimp only
    omega

theorem step (h : Handed n messages received s) (taken : QueueStep s e t) :
    Handed n (messages ++ pushes [e]) (received ++ readings [e]) t := by
  cases taken with
  | push pushed =>
      change Handed n (messages ++ [_]) (received ++ []) _
      rw [List.append_nil]
      exact h.push pushed
  | empty nothing =>
      change Handed n (messages ++ []) (received ++ []) _
      rw [MqSub.tryReadNew_eq_none nothing, List.append_nil, List.append_nil]
      exact h
  | read handed =>
      change Handed n (messages ++ []) (received ++ [_]) _
      rw [List.append_nil]
      exact h.read handed

theorem run (published : Published n messages s.ring) (index_le : s.sub.currentIndex ≤ s.ring.tail)
    {events : List (QueueEvent τ)} (run : Run QueueStep s events t) :
    Handed n (messages ++ pushes events) (readings events) t := by
  refine run.invariant (I := fun events t => Handed n (messages ++ pushes events)
    (readings events) t) ?_ ?_
  · refine ⟨(List.append_nil messages).symm ▸ published, index_le, List.Pairwise.nil,
      ?_, ?_, ?_, ?_⟩
    all_goals
      intro reading member
      cases member
  · intro events s e t kept taken
    have next := kept.step taken
    rw [List.append_assoc] at next
    have pushes_eq : pushes (events ++ [e]) = pushes events ++ pushes [e] :=
      List.filterMap_append ..
    have readings_eq : readings (events ++ [e]) = readings events ++ readings [e] :=
      List.filterMap_append ..
    rwa [pushes_eq, readings_eq]

/-- A timely reading hands out the message of its own number. -/
theorem own (h : Handed n messages received s) {reading : Reading τ} (member : reading ∈ received)
    (timely : reading.Timely n) : messages[reading.index - 1]? = some reading.message := by
  obtain ⟨first, le⟩ := h.range reading member
  have pos : 0 < n := Nat.lt_of_lt_of_le Nat.two_pos h.published.sized.two
  have message := h.message reading member
  rwa [(Reading.origin_eq_index_iff pos first le).mpr timely] at message

/-- If all messages are different, a reading with the message of its own number is timely. -/
theorem timely (h : Handed n messages received s) (distinct : messages.Nodup)
    {reading : Reading τ} (member : reading ∈ received)
    (own : messages[reading.index - 1]? = some reading.message) : reading.Timely n := by
  obtain ⟨first, le⟩ := h.range reading member
  have inside := h.inside reading member
  have pos : 0 < n := Nat.lt_of_lt_of_le Nat.two_pos h.published.sized.two
  have same := (List.getElem?_inj (show reading.index - 1 < messages.length by omega) distinct).mp
    (own.trans (h.message reading member).symm)
  have later : reading.index ≤ reading.origin n := Nat.le_add_right ..
  exact (Reading.origin_eq_index_iff pos first le).mp (by omega)

end Handed

/-- A subscriber that starts at a published number, on a ring to which messages were pushed
before, and any run of pushes and polls. -/
theorem tryReadNew_own (memory : K4RingBuffer τ) (two : 2 ≤ n) (int : n < 2147483648)
    {before : List (τ × Bool)} (pushed : pushAll (memory.init n).1 before = some ring)
    {sub : MqSub} (index_le : sub.currentIndex ≤ ring.tail) {events : List (QueueEvent τ)}
    (run : Run QueueStep ⟨ring, sub⟩ events t) :
    ((readings events).Pairwise fun earlier later => earlier.index < later.index) ∧
    (∀ reading ∈ readings events, reading.Timely n →
      (before.map Prod.fst ++ pushes events)[reading.index - 1]? = some reading.message) ∧
    ((before.map Prod.fst ++ pushes events).Nodup → ∀ reading ∈ readings events,
      (before.map Prod.fst ++ pushes events)[reading.index - 1]? = some reading.message →
      reading.Timely n) := by
  have published := (Published.init memory two int).pushAll pushed
  rw [List.nil_append] at published
  have handed := Handed.run published index_le run
  exact ⟨handed.increasing, fun _ => handed.own, fun distinct _ => handed.timely distinct⟩

/-- Three messages read on a ring of two slots, the second of them as late as it can be. -/
theorem tryReadNew_own_two : ∃ (ring : K4RingBuffer Nat) (first second third : Nat) (t : Queue Nat),
    pushAll ((zeroed 0).init (2 : Nat)).1 [(5, false)] = some ring ∧
    Run QueueStep ⟨ring, ⟨16, 0⟩⟩
      [.push 7, .read ⟨2, 1, first⟩, .push 8, .read ⟨3, 2, second⟩, .read ⟨3, 3, third⟩] t ∧
    first = 5 ∧ second = 7 ∧ third = 8 := by
  have fresh : Published 2 [] ((zeroed 0).init (2 : Nat)).1 :=
    Published.init _ (by decide) (by decide)
  obtain ⟨ring, earlier⟩ := fresh.exists_pushAll [(5, false)]
  have one : Published 2 [5] ring := fresh.pushAll earlier
  obtain ⟨ring₂, slot₂, pushed₂, two⟩ := one.exists_push 7 false
  obtain ⟨ring₃, slot₃, pushed₃, three⟩ := two.exists_push 8 false
  have tail₂ : ring₂.tail = 2 := two.tail
  have tail₃ : ring₃.tail = 3 := three.tail
  have handed₁ := MqSub.tryReadNew_of_lt ⟨16, 0⟩ (show 0 < ring₂.tail by omega)
  have handed₂ := MqSub.tryReadNew_of_lt ⟨16, 1⟩ (show 1 < ring₃.tail by omega)
  have handed₃ := MqSub.tryReadNew_of_lt ⟨16, 2⟩ (show 2 < ring₃.tail by omega)
  have first := Run.single (QueueStep.push (s := ⟨ring, ⟨16, 0⟩⟩) pushed₂)
  have run := (((first.snoc (.read handed₁)).snoc (.push pushed₃)).snoc (.read handed₂)).snoc
    (.read handed₃)
  obtain ⟨-, own, -⟩ := tryReadNew_own (zeroed 0) (by decide) (by decide) earlier
    (by simp) run
  rw [tail₂, tail₃] at run own
  simp [readings, Reading.Timely, pushes] at own
  exact ⟨ring, _, _, _, _, earlier, run, own.1.symm, own.2.1.symm, own.2.2.symm⟩

/-- A subscriber 17 messages behind on a ring of 16 slots is handed the newest message in
place of the first. -/
theorem lapped_reads_newest : ∃ (ring : K4RingBuffer Nat) (t : Queue Nat),
    pushAll ((zeroed 0).init 16).1 ((List.range' 1 17).map fun message => (message, false)) =
      some ring ∧
    Run QueueStep ⟨ring, ⟨16, 0⟩⟩ [.read ⟨17, 1, 17⟩] t ∧ (List.range' 1 17)[1 - 1]? = some 1 := by
  have fresh : Published 16 [] ((zeroed 0).init ((16 : Nat) : Int)).1 :=
    Published.init _ (by decide) (by decide)
  obtain ⟨ring, pushed⟩ := fresh.exists_pushAll
    ((List.range' 1 17).map fun message => (message, false))
  have published : Published 16 (List.range' 1 17) ring := fresh.pushAll pushed
  have tail : ring.tail = 17 := published.tail
  have newest : ring.getBySequence 1 = 17 := by
    have slot := published.getBySequence (Nat.le_refl 1) (show 1 ≤ ring.tail by omega)
    rw [tail] at slot
    exact (Option.some.inj slot).symm
  have handed : MqSub.tryReadNew ⟨16, 0⟩ ring = (some 17, ⟨16, 1⟩) := by
    rw [MqSub.tryReadNew_of_lt _ (show 0 < ring.tail by omega)]
    exact congrArg (fun message => (some message, _)) newest
  have read := QueueStep.read (s := ⟨ring, ⟨16, 0⟩⟩) handed
  rw [tail] at read
  exact ⟨ring, _, pushed, .single read, rfl⟩

end RazorCrypto.Mq
