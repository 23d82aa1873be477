import RazorCrypto.Mq.Delivery

/-!
# Starting a queue anew

`zero` sets the counters of the ring back and clears its slots. A subscriber that calls it
also sets its own `m_current_index` back, but the other subscribers keep theirs: they then
wait until the ring has counted beyond their old index, and miss the messages before it.
-/

universe u v

namespace RazorCrypto.Mq

open K4RingBuffer SlotRing Transition

variable {ι : Type v} {τ : Type u}

/-- `zero`, with the default value `T()` of a message. -/
def K4RingBuffer.zero (default : τ) (r : K4RingBuffer τ) : K4RingBuffer τ :=
  { r with
    head := 0
    tail := 0
    ring := fun i => if (i : Int) < r.ringSize then default else r.ring i }

/-- `MQ_Pub::zero`: the ring after it. -/
def MqPub.zero (default : τ) (ring : K4RingBuffer τ) : K4RingBuffer τ := ring.zero default

/-- `MQ_Sub::zero`: the ring and the subscriber after it. -/
def MqSub.zero (default : τ) (sub : MqSub) (ring : K4RingBuffer τ) : K4RingBuffer τ × MqSub :=
  (ring.zero default, { sub with currentIndex := 0 })

theorem Published.zero {n : Nat} {messages : List τ} {ring : K4RingBuffer τ}
    (h : Published n messages ring) (default : τ) : Published n [] (ring.zero default) :=
  ⟨⟨h.sized.two, h.sized.int, h.sized.ringSize, h.sized.indexMode⟩, rfl, rfl, Holds.nil⟩

namespace Zeroing

/-- Who calls `zero`. -/
inductive Caller (ι : Type v)
  | pub
  | sub (j : ι)

/-- One ring and its subscribers. Publishers have no state of their own. -/
structure State (ι : Type v) (τ : Type u) where
  ring : K4RingBuffer τ
  subs : ι → MqSub

/-- What happens on the queue. -/
inductive Event (ι : Type v) (τ : Type u)
  | pushed (data : τ)
  | polled (j : ι) (reading : Option (Reading τ))
  | zeroed (caller : Caller ι)

variable [DecidableEq ι]

/-- Another state of one subscriber. -/
def State.withSub (s : State ι τ) (j : ι) (sub : MqSub) : State ι τ :=
  { s with subs := Function.update s.subs j sub }

theorem State.withSub_self (s : State ι τ) (j : ι) (sub : MqSub) : (s.withSub j sub).subs j = sub :=
  Function.update_self ..

theorem State.withSub_of_ne (s : State ι τ) {j k : ι} (ne : k ≠ j) (sub : MqSub) :
    (s.withSub j sub).subs k = s.subs k :=
  Function.update_of_ne ne ..

/-- The state after `zero`. -/
def State.zero (default : τ) (s : State ι τ) : Caller ι → State ι τ
  | .pub => { s with ring := MqPub.zero default s.ring }
  | .sub j =>
      let result := MqSub.zero default (s.subs j) s.ring
      { s.withSub j result.2 with ring := result.1 }

/-- A completed push, a call of `try_read_new` or a call of `zero`. -/
inductive Step (default : τ) : State ι τ → Event ι τ → State ι τ → Prop
  | push {s data isSingleP ring slot}
      (pushed : s.ring.push data isSingleP = some (ring, slot)) :
      Step default s (.pushed data) { s with ring := ring }
  | empty {s j sub} (nothing : (s.subs j).tryReadNew s.ring = (none, sub)) :
      Step default s (.polled j none) (s.withSub j sub)
  | read {s j message sub} (handed : (s.subs j).tryReadNew s.ring = (some message, sub)) :
      Step default s (.polled j (some ⟨s.ring.tail, sub.currentIndex, message⟩)) (s.withSub j sub)
  | zero {s} (caller : Caller ι) : Step default s (.zeroed caller) (s.zero default caller)

/-- The messages pushed in a run, in order. -/
def pushes (events : List (Event ι τ)) : List τ :=
  events.filterMap fun
    | .pushed data => some data
    | _ => none

/-- The messages handed to one subscriber in a run, in order. -/
def received (j : ι) (events : List (Event ι τ)) : List τ :=
  events.filterMap fun
    | .polled k (some reading) => if k = j then some reading.message else none
    | _ => none

/-- The run has no call of `zero`. -/
def ZeroFree (events : List (Event ι τ)) : Prop := ∀ caller, .zeroed caller ∉ events

/-- One subscriber is never more than a lap behind when it reads. -/
def TimelyFor (n : Nat) (j : ι) (events : List (Event ι τ)) : Prop :=
  ∀ reading, .polled j (some reading) ∈ events → reading.Timely n

/-- In every continuation without `zero` in which subscriber `j` reads in time, it is handed
the messages that are pushed, each once and in order: always the first ones of them, and all
of them when it finds nothing new. -/
def InStep (default : τ) (n : Nat) (s : State ι τ) (j : ι) : Prop :=
  ∀ events t, Run (Step default) s events t → ZeroFree events → TimelyFor n j events →
    received j events <+: pushes events ∧
      (((t.subs j).tryReadNew t.ring).1 = none → received j events = pushes events)

variable {default : τ} {n : Nat} {messages : List τ} {ring : K4RingBuffer τ}
variable {s t : State ι τ} {e : Event ι τ}
  {events : List (Event ι τ)} {j : ι}

/-- A step keeps the ring filled with the messages pushed since the last `zero`. -/
theorem published_step (h : Published n messages s.ring) (taken : Step default s e t) :
    ∃ messages', Published n messages' t.ring := by
  cases taken with
  | push pushed => exact ⟨_, h.push pushed⟩
  | empty nothing => exact ⟨_, h⟩
  | read handed => exact ⟨_, h⟩
  | zero caller =>
      refine ⟨[], ?_⟩
      cases caller with
      | pub => exact h.zero default
      | sub j => exact h.zero default

theorem published_run (h : Published n messages s.ring) (run : Run (Step default) s events t) :
    ∃ messages', Published n messages' t.ring :=
  run.invariant (I := fun _ t => ∃ messages', Published n messages' t.ring) ⟨_, h⟩
    fun ⟨_, published⟩ taken => published_step published taken

/-- Subscriber `j` was handed the messages up to its index. -/
structure Follows (n : Nat) (j : ι) (messages handed : List τ) (s : State ι τ) : Prop where
  published : Published n messages s.ring
  index_le : (s.subs j).currentIndex ≤ s.ring.tail
  handed : handed = messages.take (s.subs j).currentIndex

/-- A message at most one lap back is still in its slot. -/
theorem getBySequence_next (h : Published n messages ring) {index : Nat}
    (new : index < ring.tail) (timely : ring.tail - index ≤ n) :
    messages[index]? = some (ring.getBySequence (index + 1)) := by
  have slot := h.getBySequence (Nat.le_add_left 1 index) new
  have lap : (ring.tail - (index + 1)) / n = 0 := Nat.div_eq_of_lt (by omega)
  rwa [lap, Nat.mul_zero, Nat.add_zero, Nat.add_sub_cancel] at slot

theorem Follows.step {handed : List τ} (h : Follows n j messages handed s)
    (taken : Step default s e t) (noZero : ∀ caller, e ≠ .zeroed caller)
    (timely : ∀ reading, e = .polled j (some reading) → reading.Timely n) :
    Follows n j (messages ++ pushes [e]) (handed ++ received j [e]) t := by
  cases taken with
  | @push data isSingleP ring slot pushed =>
      change Follows n j (messages ++ [data]) (handed ++ []) _
      have published := h.published.push pushed
      have inside : (s.subs j).currentIndex ≤ messages.length :=
        h.index_le.trans h.published.tail.le
      refine ⟨published, ?_, ?_⟩
      · change (s.subs j).currentIndex ≤ ring.tail
        rw [published.tail, List.length_append]
        exact inside.trans (Nat.le_add_right _ _)
      · rw [List.append_nil, h.handed, List.take_append_of_le_length inside]
  | @empty k sub nothing =>
      change Follows n j (messages ++ []) (handed ++ []) _
      rw [List.append_nil, List.append_nil, MqSub.tryReadNew_eq_none nothing,
        State.withSub, Function.update_eq_self]
      exact h
  | @read k message sub taken =>
      obtain ⟨new, next, value⟩ := MqSub.tryReadNew_eq_some taken
      change Follows n j (messages ++ []) _ _
      rw [List.append_nil]
      by_cases own : k = j
      · subst own
        have handed_eq : received k [.polled k (some ⟨s.ring.tail, sub.currentIndex, message⟩)] =
            [message] := by
          simp [received]
        have lag := timely _ rfl
        rw [Reading.Timely, next, Nat.add_sub_cancel] at lag
        refine ⟨h.published, ?_, ?_⟩
        · rw [s.withSub_self, next]
          exact new
        · rw [handed_eq, s.withSub_self, next, h.handed, List.take_add_one,
            getBySequence_next h.published new lag, value]
          rfl
      · have handed_eq : received j [.polled k (some ⟨s.ring.tail, sub.currentIndex, message⟩)] =
            [] := by
          simp [received, own]
        rw [handed_eq, List.append_nil]
        refine ⟨h.published, ?_, ?_⟩
        · rw [s.withSub_of_ne (Ne.symm own)]
          exact h.index_le
        · rw [s.withSub_of_ne (Ne.symm own)]
          exact h.handed
  | zero caller => exact absurd rfl (noZero caller)

theorem Follows.run (h : Follows n j [] [] s) (run : Run (Step default) s events t)
    (zeroFree : ZeroFree events) (timely : TimelyFor n j events) :
    Follows n j (pushes events) (received j events) t := by
  refine run.invariant (I := fun events t => ZeroFree events → TimelyFor n j events →
    Follows n j (pushes events) (received j events) t) (fun _ _ => h) ?_ zeroFree timely
  intro events s e t before taken zeroFree timely
  have earlier := before (fun caller member => zeroFree caller (List.mem_append_left _ member))
    fun reading member => timely reading (List.mem_append_left _ member)
  have last : ∀ {e'}, e = e' → e' ∈ events ++ [e] := by
    rintro e' rfl
    exact List.mem_append_right _ (List.mem_singleton_self _)
  have next := earlier.step taken (fun caller same => zeroFree caller (last same))
    fun reading same => timely reading (last same)
  rw [pushes, received, List.filterMap_append, List.filterMap_append]
  exact next

theorem zero_currentIndex (caller : Caller ι) :
    ((s.zero default caller).subs j).currentIndex = 0 ↔
      caller = .sub j ∨ (s.subs j).currentIndex = 0 := by
  cases caller with
  | pub =>
      refine (or_iff_right ?_).symm
      intro same
      cases same
  | sub k =>
      by_cases own : k = j
      · subst own
        refine iff_of_true ?_ (Or.inl rfl)
        exact congrArg MqSub.currentIndex (s.withSub_self k _)
      · have kept : (s.zero default (.sub k)).subs j = s.subs j :=
          s.withSub_of_ne (Ne.symm own) _
        rw [kept]
        refine (or_iff_right ?_).symm
        rintro ⟨⟩
        exact own rfl

/-- On an empty queue a subscriber with index zero keeps in step. -/
theorem inStep_of_currentIndex (empty : Published n [] s.ring)
    (start : (s.subs j).currentIndex = 0) : InStep default n s j := by
  intro events t run zeroFree timely
  have follows : Follows n j [] [] s :=
    ⟨empty, start.trans_le (Nat.zero_le _), List.take_nil.symm⟩
  have after := follows.run run zeroFree timely
  refine ⟨after.handed ▸ List.take_prefix _ _, ?_⟩
  intro drained
  have whole : (pushes events).length ≤ (t.subs j).currentIndex := by
    by_contra behind
    have new : (t.subs j).currentIndex < t.ring.getCurSequence := by
      rw [getCurSequence, after.published.tail]
      omega
    rw [MqSub.tryReadNew, if_pos new] at drained
    cases drained
  rw [after.handed, List.take_of_length_le whole]

/-- A subscriber that has an old index misses the first message. -/
theorem not_inStep_of_currentIndex (empty : Published n [] s.ring)
    (old : 0 < (s.subs j).currentIndex) : ¬ InStep default n s j := by
  intro inStep
  have quiet : s.ring.head = s.ring.tail := empty.head.trans empty.tail.symm
  have pushed := push_of_quiet quiet default false
  have run : Run (Step default) s [.pushed default] _ := .single (.push pushed)
  have zeroFree : ZeroFree ([.pushed default] : List (Event ι τ)) := by
    intro caller member
    cases List.mem_singleton.mp member
  have timely : TimelyFor n j ([.pushed default] : List (Event ι τ)) := by
    intro reading member
    cases List.mem_singleton.mp member
  have all := (inStep _ _ run zeroFree timely).2 ?_
  · cases all
  · have tail : s.ring.tail = 0 := empty.tail
    have nothing : ¬ (s.subs j).currentIndex < s.ring.tail + 1 := by omega
    exact congrArg Prod.fst (if_neg nothing)

/-- After a call of `zero` exactly those subscribers keep in step that called it themselves
or had their index at zero. -/
theorem inStep_zero_iff (memory : K4RingBuffer τ) (two : 2 ≤ n) (int : n < 2147483648)
    {before : List (τ × Bool)} {ring : K4RingBuffer τ}
    (pushed : pushAll (memory.init n).1 before = some ring) {subs : ι → MqSub}
    (run : Run (Step default) ⟨ring, subs⟩ events s) (caller : Caller ι) (j : ι) :
    InStep default n (s.zero default caller) j ↔
      caller = .sub j ∨ (s.subs j).currentIndex = 0 := by
  obtain ⟨messages, published⟩ :=
    published_run ((Published.init memory two int).pushAll pushed) run
  have empty : Published n [] (s.zero default caller).ring := by
    cases caller with
    | pub => exact published.zero default
    | sub k => exact published.zero default
  rw [← zero_currentIndex]
  constructor
  · intro inStep
    by_contra old
    exact not_inStep_of_currentIndex empty (Nat.pos_of_ne_zero old) inStep
  · exact inStep_of_currentIndex empty

/-- A new ring of two slots with subscribers. -/
def openedBy (ι : Type v) : State ι Nat := ⟨((zeroed 0).init (2 : Nat)).1, fun _ => ⟨16, 0⟩⟩

theorem openedBy_published (ι : Type v) : Published 2 [] (openedBy ι).ring :=
  Published.init _ (Nat.le_refl 2) (by decide)

/-- A new ring of two slots and one subscriber. -/
def opened : State Unit Nat := openedBy Unit

/-- Of two messages one subscriber has read both and the other one the first. Then the former calls
`zero`: it keeps in step, and the latter does not. -/
theorem inStep_zero_iff_two : ∃ (events : List (Event Bool Nat)) (s : State Bool Nat),
    Run (Step 0) (openedBy Bool) events s ∧ pushes events = [7, 8] ∧
      (s.subs true).currentIndex = 2 ∧ (s.subs false).currentIndex = 1 ∧
      InStep 0 2 (s.zero 0 (.sub true)) true ∧
      ¬ InStep 0 2 (s.zero 0 (.sub true)) false := by
  have none : pushAll ((zeroed 0).init (2 : Nat)).1 [] = some (openedBy Bool).ring := rfl
  obtain ⟨ring, slot, pushed, one⟩ := (openedBy_published Bool).exists_push 7 false
  obtain ⟨ring', slot', pushed', two⟩ := one.exists_push 8 false
  have tail : ring'.tail = 2 := two.tail
  let s₁ : State Bool Nat := ⟨ring', (openedBy Bool).subs⟩
  let s₂ := s₁.withSub true ⟨16, 1⟩
  let s₃ := s₂.withSub true ⟨16, 2⟩
  have handed₁ := MqSub.tryReadNew_of_lt (s₁.subs true) (show 0 < ring'.tail by omega)
  have handed₂ := MqSub.tryReadNew_of_lt (s₂.subs true) (show 1 < ring'.tail by omega)
  have handed₃ := MqSub.tryReadNew_of_lt (s₃.subs false) (show 0 < ring'.tail by omega)
  have push : Step 0 (openedBy Bool) (.pushed 7) ⟨ring, (openedBy Bool).subs⟩ := .push pushed
  have push' : Step 0 ⟨ring, (openedBy Bool).subs⟩ (.pushed 8) s₁ := .push pushed'
  have read₁ : Step 0 s₁ _ s₂ := .read handed₁
  have read₂ : Step 0 s₂ _ s₃ := .read handed₂
  have read₃ : Step 0 s₃ _ (s₃.withSub false ⟨16, 1⟩) := .read handed₃
  have run := ((((Run.single push).snoc push').snoc read₁).snoc read₂).snoc read₃
  refine ⟨_, _, run, rfl, rfl, rfl, ?_, ?_⟩
  · exact (inStep_zero_iff (zeroed 0) (Nat.le_refl 2) (by decide) none run (.sub true) true).mpr
      (.inl rfl)
  · refine (inStep_zero_iff (zeroed 0) (Nat.le_refl 2) (by decide) none run (.sub true)
      false).not.mpr ?_
    rintro (⟨⟨⟩⟩ | ⟨⟨⟩⟩)

/-- A subscriber that read one message does not keep in step when a publisher calls `zero`. -/
theorem zero_leaves_behind : ∃ (events : List (Event Unit Nat)) (s : State Unit Nat),
    Run (Step 0) opened events s ∧ ¬ InStep 0 2 (s.zero 0 .pub) () := by
  obtain ⟨ring, slot, pushed, published⟩ := (openedBy_published Unit).exists_push 7 false
  have tail : ring.tail = 1 := published.tail
  have handed := MqSub.tryReadNew_of_lt (opened.subs ()) (show 0 < ring.tail by omega)
  have push : Step 0 opened (.pushed 7) ⟨ring, opened.subs⟩ := .push pushed
  have read : Step 0 ⟨ring, opened.subs⟩ _ (State.withSub ⟨ring, opened.subs⟩ () _) :=
    .read handed
  exact ⟨_, _, (Run.single push).snoc read,
    not_inStep_of_currentIndex (published.zero 0) Nat.one_pos⟩

end Zeroing
end RazorCrypto.Mq
