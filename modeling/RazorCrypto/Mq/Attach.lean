import RazorCrypto.Mq.Endpoints
import RazorCrypto.Mq.PushAlone

/-!
# Subscribers attaching to a ring in use

A subscriber takes a ring without a published message for uninitialised and initialises it
with its own capacity. It loads `prod.tail` for this test and then stores the fields of the
ring one after the other, while producers push and other subscribers attach. The stores only
leave the ring alone if no push has claimed a number at the test, both capacities give the
same size, and no push claims a number before `prod.head` or publishes one before `prod.tail`
is stored. While every step meets this condition, the order of claims and counters holds and
each producer can go on. The first step that breaks it can be followed by stores that change
the ring: `prod.head` may fall behind `prod.tail` and no push ever completes again.
-/

universe u v w x

namespace RazorCrypto.Mq

open K4RingBuffer MachineInt MqSub Transition

variable {ι : Type u} {β : Type v} {P : Type w} {Q : Type x}

/-- The fields of the ring that are not messages are the same. -/
structure SameControl {τ : Type u} (before after : K4RingBuffer τ) : Prop where
  ringSize : after.ringSize = before.ringSize
  indexMode : after.indexMode = before.indexMode
  head : after.head = before.head
  tail : after.tail = before.tail

/-- Where a subscriber is in `initialize`, with its `m_capacity`. -/
inductive SubPc
  | idle
  | testTail (capacity : Nat) (startFromBeginning : Bool)
  | readSequence (capacity : Nat)
  | storeMode (capacity : Nat)
  | storeSize (capacity : Nat)
  | storeHead (capacity : Nat)
  | storeTail (capacity : Nat)
  | ready (sub : MqSub)

namespace SubPc

/-- A store of `prod.head` is to come. -/
def BeforeHead : SubPc → Prop
  | storeMode _ | storeSize _ | storeHead _ => True
  | _ => False

/-- A store of `prod.tail` is to come. -/
def BeforeTail : SubPc → Prop
  | storeMode _ | storeSize _ | storeHead _ | storeTail _ => True
  | _ => False

theorem BeforeHead.tail {pc : SubPc} (before : pc.BeforeHead) : pc.BeforeTail := by
  cases pc with
  | idle | testTail | readSequence | storeTail | ready => exact before.elim
  | storeMode | storeSize | storeHead => trivial

end SubPc

/-- The ring in shared memory with its producers, and the subscribers. -/
structure System (ι : Type u) (β : Type v) (P : Type w) (Q : Type x) where
  shared : State ι β P
  subs : Q → SubPc

namespace System

/-- The ring. -/
def ring (s : System ι β P Q) : K4RingBuffer (ι → β) := s.shared.ring

/-- An initialised ring with idle producers and no subscriber. -/
def start (ring : K4RingBuffer (ι → β)) : System ι β P Q := ⟨.start ring, fun _ => .idle⟩

/-- Subscriber `q` has accessed the ring and continues at `pc`. -/
def goto [DecidableEq Q] (s : System ι β P Q) (ring : K4RingBuffer (ι → β)) (q : Q) (pc : SubPc) :
    System ι β P Q :=
  ⟨{ s.shared with ring := ring }, Function.update s.subs q pc⟩

end System

/-- What happens on the ring: steps of producers, the test of a subscriber, and its other steps. -/
inductive SystemEvent (ι : Type u) (β : Type v) (P : Type w) (Q : Type x)
  | producer (e : Event ι β P)
  | tests (q : Q) (capacity : Nat)
  | access (q : Q)

/-- One atomic step of a producer or of a subscriber. -/
inductive SystemStep [DecidableEq ι] [DecidableEq P] [DecidableEq Q] :
    System ι β P Q → SystemEvent ι β P Q → System ι β P Q → Prop
  | producer {s e t} (taken : Step s.shared e t) :
      SystemStep s (.producer e) { s with shared := t }
  | construct {s q} (here : s.subs q = .idle) (capacity : Nat) (startFromBeginning : Bool) :
      SystemStep s (.access q)
        (s.goto s.ring q (.testTail (validateCapacity capacity) startFromBeginning))
  | initialized {s q capacity startFromBeginning}
      (here : s.subs q = .testTail capacity startFromBeginning)
      (initialized : isSharedMemoryInitialized s.ring = true) :
      SystemStep s (.tests q capacity) (s.goto s.ring q
        (if startFromBeginning then .ready ⟨capacity, 0⟩ else .readSequence capacity))
  | readSequence {s q} {capacity : Nat} (here : s.subs q = .readSequence capacity) :
      SystemStep s (.access q) (s.goto s.ring q (.ready ⟨capacity, s.ring.getCurSequence⟩))
  | uninitialized {s q capacity startFromBeginning}
      (here : s.subs q = .testTail capacity startFromBeginning)
      (uninitialized : isSharedMemoryInitialized s.ring = false) :
      SystemStep s (.tests q capacity) (s.goto s.ring q
        (if asInt32 capacity ≤ 1 then .ready ⟨capacity, 0⟩ else .storeMode capacity))
  | storeMode {s q} {capacity : Nat} (here : s.subs q = .storeMode capacity) :
      SystemStep s (.access q) (s.goto { s.ring with indexMode :=
        if (asInt32 capacity).toNat &&& (asInt32 capacity - 1).toNat = 0 then 0 else 1 }
        q (.storeSize capacity))
  | storeSize {s q} {capacity : Nat} (here : s.subs q = .storeSize capacity) :
      SystemStep s (.access q)
        (s.goto { s.ring with ringSize := asInt32 capacity } q (.storeHead capacity))
  | storeHead {s q} {capacity : Nat} (here : s.subs q = .storeHead capacity) :
      SystemStep s (.access q) (s.goto { s.ring with head := 0 } q (.storeTail capacity))
  | storeTail {s q} {capacity : Nat} (here : s.subs q = .storeTail capacity) :
      SystemStep s (.access q) (s.goto { s.ring with tail := 0 } q (.ready ⟨capacity, 0⟩))

/-- A subscriber with this `m_capacity` either does not initialise the ring, or fails to, or
would write what is there. -/
def AttachSafe {τ : Type u} (ring : K4RingBuffer τ) (capacity : Nat) : Prop :=
  ring.tail ≠ 0 ∨ asInt32 capacity ≤ 1 ∨ ring.head = 0 ∧ ring.ringSize = asInt32 capacity

/-- The condition on a step: a subscriber tests a ring that it may initialise, and nobody pushes
ahead of the stores that this leads to. -/
def SystemEvent.Safe (s : System ι β P Q) : SystemEvent ι β P Q → Prop
  | .tests _ capacity => AttachSafe s.ring capacity
  | .producer (.claim _ _ _) => ∀ q, ¬(s.subs q).BeforeHead
  | .producer (.complete _ _) => ∀ q, ¬(s.subs q).BeforeTail
  | _ => True

/-- Steps that meet the condition. -/
def SafeStep [DecidableEq ι] [DecidableEq P] [DecidableEq Q] (s : System ι β P Q)
    (e : SystemEvent ι β P Q) (t : System ι β P Q) : Prop :=
  SystemStep s e t ∧ e.Safe s

/-! ## Initialising an initialised ring -/

section Init

variable {τ : Type u} {ring ring' : K4RingBuffer τ} {zero : τ} {n capacity : Nat} {sub : MqSub}
variable {requireExisting startFromBeginning : Bool}

/-- The index mode that `init` stores for the size of the ring is there. -/
theorem K4RingBuffer.Sized.mode (sized : Sized n ring) {len : Int} (size : ring.ringSize = len) :
    (if len.toNat &&& (len - 1).toNat = 0 then 0 else 1) = ring.indexMode := by
  have known : len = n := size.symm.trans sized.ringSize
  subst known
  have before : ((n : Int) - 1).toNat = n - 1 := by omega
  rw [sized.indexMode, before, Int.toNat_natCast]

/-- It is left alone in these cases only. -/
theorem sameControl_init_iff (sized : Sized n ring) (len : Int) (unpublished : ring.tail = 0) :
    SameControl ring (ring.init len).1 ↔ len ≤ 1 ∨ ring.head = 0 ∧ ring.ringSize = len := by
  by_cases small : len ≤ 1
  · rw [init, if_pos small]
    exact iff_of_true ⟨rfl, rfl, rfl, rfl⟩ (.inl small)
  · constructor
    · intro same
      have head := same.head
      have size := same.ringSize
      rw [init, if_neg small] at head size
      exact .inr ⟨head.symm, size.symm⟩
    · rintro (contradiction | ⟨head, size⟩)
      · exact absurd contradiction small
      · have known : len = n := size.symm.trans sized.ringSize
        subst known
        have sized' := init_sized (r := ring) sized.two sized.int
        refine ⟨sized'.ringSize.trans sized.ringSize.symm,
          sized'.indexMode.trans sized.indexMode.symm, ?_, ?_⟩
        · rw [init, if_neg small]
          exact head.symm
        · rw [init, if_neg small]
          exact unpublished.symm

/-- A subscriber that nothing interrupts leaves the ring alone in these cases only. -/
theorem sameControl_iff (sized : Sized n ring)
    (attached : construct zero (some ring) capacity requireExisting startFromBeginning =
      some (ring', sub)) :
    SameControl ring ring' ↔ AttachSafe ring (validateCapacity capacity) := by
  by_cases unpublished : ring.tail = 0
  · rw [construct_of_unpublished _ _ _ _ unpublished] at attached
    cases attached
    rw [sameControl_init_iff sized _ unpublished, AttachSafe]
    simp [unpublished]
  · rw [construct_of_published _ _ _ _ unpublished] at attached
    cases attached
    exact iff_of_true ⟨rfl, rfl, rfl, rfl⟩ (.inl unpublished)

end Init

namespace SameControl

variable {τ : Type u} {ring ring' : K4RingBuffer τ} {n : Nat}

theorem refl (ring : K4RingBuffer τ) : SameControl ring ring := ⟨rfl, rfl, rfl, rfl⟩

theorem sized (same : SameControl ring ring') (sized : Sized n ring) : Sized n ring' :=
  ⟨sized.two, sized.int, same.ringSize.trans sized.ringSize, same.indexMode.trans sized.indexMode⟩

end SameControl

/-! ## One subscriber on its own -/

section Alone

variable [DecidableEq Q] {zero : ι → β} {s : System ι β P Q} {q : Q} {capacity : Nat}

namespace System

theorem goto_ring (ring : K4RingBuffer (ι → β)) (pc : SubPc) : (s.goto ring q pc).ring = ring := rfl

theorem goto_self {ring : K4RingBuffer (ι → β)} {pc : SubPc} : (s.goto ring q pc).subs q = pc :=
  Function.update_self ..

theorem goto_eq_self (s : System ι β P Q) {pc : SubPc} (here : s.subs q = pc) :
    s.goto s.ring q pc = s := by
  subst here
  exact congrArg (System.mk s.shared) (Function.update_eq_self q s.subs)

/-- Only the last of several moves of one subscriber shows. -/
theorem goto_goto (ring ring' : K4RingBuffer (ι → β)) (pc pc' : SubPc) :
    (s.goto ring q pc).goto ring' q pc' = s.goto ring' q pc' :=
  congrArg (System.mk _) (Function.update_idem ..)

end System

variable [DecidableEq ι] [DecidableEq P]

/-- A step of a subscriber that has moved before is written as one move. -/
theorem SystemStep.of_goto {ring ring' : K4RingBuffer (ι → β)} {pc pc' : SubPc}
    {e : SystemEvent ι β P Q}
    (taken : SystemStep (s.goto ring q pc) e ((s.goto ring q pc).goto ring' q pc')) :
    SystemStep (s.goto ring q pc) e (s.goto ring' q pc') := by
  rwa [System.goto_goto] at taken

/-- The stores of `init` from `prod.head` on. -/
theorem run_storeHead (s : System ι β P Q) (q : Q) (ring : K4RingBuffer (ι → β)) (capacity : Nat) :
    Run SystemStep (s.goto ring q (.storeHead capacity)) [.access q, .access q]
      (s.goto { ring with head := 0, tail := 0 } q (.ready ⟨capacity, 0⟩)) := by
  have head : SystemStep (s.goto ring q (.storeHead capacity)) (.access q)
      (s.goto { ring with head := 0 } q (.storeTail capacity)) :=
    .of_goto (.storeHead System.goto_self)
  exact (Run.single head).snoc (.of_goto (.storeTail System.goto_self))

theorem run_storeSize (s : System ι β P Q) (q : Q) (ring : K4RingBuffer (ι → β)) (capacity : Nat) :
    Run SystemStep (s.goto ring q (.storeSize capacity)) [.access q, .access q, .access q]
      (s.goto { ring with ringSize := asInt32 capacity, head := 0, tail := 0 } q
        (.ready ⟨capacity, 0⟩)) := by
  have size : SystemStep (s.goto ring q (.storeSize capacity)) (.access q)
      (s.goto { ring with ringSize := asInt32 capacity } q (.storeHead capacity)) :=
    .of_goto (.storeSize System.goto_self)
  exact (run_storeHead s q { ring with ringSize := asInt32 capacity } capacity).head size

theorem run_storeMode (s : System ι β P Q) (q : Q) (ring : K4RingBuffer (ι → β)) (capacity : Nat) :
    Run SystemStep (s.goto ring q (.storeMode capacity))
      [.access q, .access q, .access q, .access q]
      (s.goto { ring with
        indexMode :=
          if (asInt32 capacity).toNat &&& (asInt32 capacity - 1).toNat = 0 then 0 else 1
        ringSize := asInt32 capacity
        head := 0
        tail := 0 } q (.ready ⟨capacity, 0⟩)) := by
  have mode : SystemStep (s.goto ring q (.storeMode capacity)) (.access q)
      (s.goto { ring with indexMode :=
        if (asInt32 capacity).toNat &&& (asInt32 capacity - 1).toNat = 0 then 0 else 1 }
        q (.storeSize capacity)) := .of_goto (.storeMode System.goto_self)
  exact (run_storeSize s q _ capacity).head mode

/-- All stores of `init`. -/
theorem run_init (s : System ι β P Q) (q : Q) (ring : K4RingBuffer (ι → β)) {capacity : Nat}
    (size : ¬asInt32 capacity ≤ 1) :
    Run SystemStep (s.goto ring q (.storeMode capacity))
      [.access q, .access q, .access q, .access q]
      (s.goto (ring.init (asInt32 capacity)).1 q (.ready ⟨capacity, 0⟩)) := by
  rw [init, if_neg size]
  exact run_storeMode s q ring capacity

/-- What a subscriber in `init` stores at last. -/
theorem run_rest {s : System ι β P Q} {q : Q} (before : (s.subs q).BeforeTail) :
    ∃ events t, (∀ e ∈ events, e = .access q) ∧ Run SystemStep s events t ∧ t.ring.tail = 0 ∧
      ((s.subs q).BeforeHead → t.ring.head = 0) := by
  obtain ⟨pc, here⟩ : ∃ pc, s.subs q = pc := ⟨_, rfl⟩
  rw [here] at before ⊢
  rw [← s.goto_eq_self here]
  cases pc with
  | idle | testTail | readSequence | ready => exact before.elim
  | storeMode capacity =>
      exact ⟨_, _, by simp, run_storeMode s q s.ring capacity, rfl, fun _ => rfl⟩
  | storeSize capacity =>
      exact ⟨_, _, by simp, run_storeSize s q s.ring capacity, rfl, fun _ => rfl⟩
  | storeHead capacity =>
      exact ⟨_, _, by simp, run_storeHead s q s.ring capacity, rfl, fun _ => rfl⟩
  | storeTail capacity =>
      have tail : SystemStep (s.goto s.ring q (.storeTail capacity)) (.access q)
          (s.goto { s.ring with tail := 0 } q (.ready ⟨capacity, 0⟩)) :=
        .of_goto (.storeTail System.goto_self)
      exact ⟨_, _, by simp, .single tail, rfl, False.elim⟩

/-- A constructor that nothing interrupts is a run of the single steps of its subscriber. -/
theorem run_attach (s : System ι β P Q) {q : Q} (idle : s.subs q = .idle)
    {requireExisting startFromBeginning : Bool} {ring' : K4RingBuffer (ι → β)} {sub : MqSub}
    (attached : construct zero (some s.ring) capacity requireExisting startFromBeginning =
      some (ring', sub)) :
    ∃ events, (∀ e ∈ events, ∀ e', e ≠ .producer e') ∧
      Run SystemStep s events (s.goto ring' q (.ready sub)) := by
  have call : SystemStep s (.access q) (s.goto s.ring q
    (.testTail (validateCapacity capacity) startFromBeginning)) := .construct idle ..
  by_cases unpublished : s.ring.tail = 0
  · have uninitialized : isSharedMemoryInitialized s.ring = false :=
      bne_eq_false_iff_eq.mpr unpublished
    rw [construct_of_unpublished _ _ _ _ unpublished] at attached
    cases attached
    have test : SystemStep (s.goto s.ring q
        (.testTail (validateCapacity capacity) startFromBeginning))
        (.tests q (validateCapacity capacity)) (s.goto s.ring q
          (if asInt32 (validateCapacity capacity) ≤ 1 then .ready ⟨validateCapacity capacity, 0⟩
          else .storeMode (validateCapacity capacity))) :=
      .of_goto (.uninitialized System.goto_self uninitialized)
    by_cases small : asInt32 (validateCapacity capacity) ≤ 1
    · rw [if_pos small] at test
      rw [init, if_pos small]
      exact ⟨_, by simp, (Run.single call).snoc test⟩
    · rw [if_neg small] at test
      exact ⟨_, by simp, ((run_init s q s.ring small).head test).head call⟩
  · have initialized : isSharedMemoryInitialized s.ring = true := bne_iff_ne.mpr unpublished
    rw [construct_of_published _ _ _ _ unpublished] at attached
    cases attached
    have test : SystemStep (s.goto s.ring q
        (.testTail (validateCapacity capacity) startFromBeginning))
        (.tests q (validateCapacity capacity)) (s.goto s.ring q
          (if startFromBeginning then .ready ⟨validateCapacity capacity, 0⟩
          else .readSequence (validateCapacity capacity))) :=
      .of_goto (.initialized System.goto_self initialized)
    cases startFromBeginning with
    | true => exact ⟨_, by simp, (Run.single call).snoc test⟩
    | false =>
        have read : SystemStep (s.goto s.ring q (.readSequence (validateCapacity capacity)))
            (.access q) (s.goto s.ring q (.ready ⟨validateCapacity capacity, s.ring.tail⟩)) :=
          .of_goto (.readSequence System.goto_self)
        exact ⟨_, by simp, ((Run.single call).snoc test).snoc read⟩

end Alone

/-! ## Subscribers that meet the condition -/

namespace SubPc

/-- What a subscriber is about to store is there. -/
def Keeps {τ : Type u} (ring : K4RingBuffer τ) : SubPc → Prop
  | storeMode capacity | storeSize capacity =>
      ring.ringSize = asInt32 capacity ∧ ring.head = 0 ∧ ring.tail = 0
  | storeHead _ => ring.head = 0 ∧ ring.tail = 0
  | storeTail _ => ring.tail = 0
  | _ => True

variable {τ : Type u} {ring ring' : K4RingBuffer τ} {pc : SubPc}

theorem Keeps.mono (h : pc.Keeps ring) (size : ring'.ringSize = ring.ringSize)
    (head : pc.BeforeHead → ring'.head = ring.head)
    (tail : pc.BeforeTail → ring'.tail = ring.tail) : pc.Keeps ring' := by
  cases pc with
  | idle | testTail | readSequence | ready => trivial
  | storeMode | storeSize =>
      exact ⟨size.trans h.1, (head trivial).trans h.2.1, (tail trivial).trans h.2.2⟩
  | storeHead => exact ⟨(head trivial).trans h.1, (tail trivial).trans h.2⟩
  | storeTail => exact (tail trivial).trans h

end SubPc

section Producer

variable [DecidableEq ι] [DecidableEq P] {s t : State ι β P} {e : Event ι β P} {n : Nat}

/-- Producers leave the geometry of the ring alone. -/
theorem Step.geometry (taken : Step s e t) :
    t.ring.ringSize = s.ring.ringSize ∧ t.ring.indexMode = s.ring.indexMode := by
  cases taken <;> exact ⟨rfl, rfl⟩

theorem Step.sized (taken : Step s e t) (sized : Sized n s.ring) : Sized n t.ring :=
  ⟨sized.two, sized.int, taken.geometry.1.trans sized.ringSize,
    taken.geometry.2.trans sized.indexMode⟩

/-- Only a claim moves `prod.head`. -/
theorem Step.head (taken : Step s e t) (unclaimed : ∀ p sequence data, e ≠ .claim p sequence data) :
    t.ring.head = s.ring.head := by
  cases taken with
  | won => exact absurd rfl (unclaimed _ _ _)
  | call | readHead | full | room | lost | storeWord | copied | wait | turn | publish => rfl

/-- Only a completed push moves `prod.tail`. -/
theorem Step.tail (taken : Step s e t) (uncompleted : ∀ p sequence, e ≠ .complete p sequence) :
    t.ring.tail = s.ring.tail := by
  cases taken with
  | publish => exact absurd rfl (uncompleted _ _)
  | call | readHead | full | room | lost | storeWord | copied | wait | turn | won => rfl

end Producer

/-- The producers go on while the subscribers stay where they are. -/
theorem run_producer [DecidableEq ι] [DecidableEq P] [DecidableEq Q] {s t : State ι β P}
    {events : List (Event ι β P)} (subs : Q → SubPc) (run : Run Step s events t) :
    Run SystemStep (System.mk s subs) (events.map .producer) (System.mk t subs) := by
  induction run with
  | refl => exact .refl
  | snoc _ taken ih =>
      rw [List.map_append]
      exact ih.snoc (.producer taken)

/-- What the runs keep: claims and counters are in order, the ring has the size of its publisher,
and the subscribers store what is there. -/
structure Settled (n : Nat) (s : System ι β P Q) : Prop where
  order : Order s.shared
  sized : Sized n s.ring
  keeps : ∀ q, (s.subs q).Keeps s.ring

variable {s t : System ι β P Q} {e : SystemEvent ι β P Q} {n : Nat}

namespace Settled

theorem start {ring : K4RingBuffer (ι → β)} (sized : Sized n ring) (quiet : ring.head = ring.tail) :
    Settled n (System.start (P := P) (Q := Q) ring) :=
  ⟨.start quiet, sized, fun _ => trivial⟩

/-- What a subscriber is about to store is there. -/
theorem keeps_at (h : Settled n s) {q : Q} {pc : SubPc} (here : s.subs q = pc) : pc.Keeps s.ring :=
  here ▸ h.keeps q

theorem storeMode (h : Settled n s) {q : Q} {capacity : Nat}
    (here : s.subs q = .storeMode capacity) : SameControl s.ring { s.ring with indexMode :=
      if (asInt32 capacity).toNat &&& (asInt32 capacity - 1).toNat = 0 then 0 else 1 } :=
  ⟨rfl, h.sized.mode (h.keeps_at here).1, rfl, rfl⟩

theorem storeSize (h : Settled n s) {q : Q} {capacity : Nat}
    (here : s.subs q = .storeSize capacity) :
    SameControl s.ring { s.ring with ringSize := asInt32 capacity } :=
  ⟨(h.keeps_at here).1.symm, rfl, rfl, rfl⟩

theorem storeHead (h : Settled n s) {q : Q} {capacity : Nat}
    (here : s.subs q = .storeHead capacity) : SameControl s.ring { s.ring with head := 0 } :=
  ⟨rfl, rfl, (h.keeps_at here).1.symm, rfl⟩

theorem storeTail (h : Settled n s) {q : Q} {capacity : Nat}
    (here : s.subs q = .storeTail capacity) : SameControl s.ring { s.ring with tail := 0 } :=
  ⟨rfl, rfl, rfl, (h.keeps_at here).symm⟩

variable [DecidableEq ι] [DecidableEq P]

/-- A step of a producer. -/
theorem producer {e : Event ι β P} {t : State ι β P} (h : Settled n s) (taken : Step s.shared e t)
    (safe : SystemEvent.Safe s (.producer e)) : Settled n { s with shared := t } := by
  refine ⟨h.order.step taken, taken.sized h.sized, fun q => ?_⟩
  refine (h.keeps q).mono taken.geometry.1 (fun before => ?_) fun before => ?_
  · refine taken.head ?_
    rintro p sequence data rfl
    exact safe q before
  · refine taken.tail ?_
    rintro p sequence rfl
    exact safe q before

variable [DecidableEq Q]

omit [DecidableEq ι] [DecidableEq P] in
/-- A subscriber moves on and has changed nothing. -/
theorem goto (h : Settled n s) {ring : K4RingBuffer (ι → β)} (same : SameControl s.ring ring)
    (q : Q) {pc : SubPc} (keeps : pc.Keeps ring) : Settled n (s.goto ring q pc) := by
  refine ⟨h.order.of_counters ring same.head same.tail, same.sized h.sized, ?_⟩
  refine (Function.forall_update_iff s.subs fun _ pc => pc.Keeps ring).mpr ⟨keeps, ?_⟩
  intro other _
  exact (h.keeps other).mono same.ringSize (fun _ => same.head) fun _ => same.tail

/-- A step of a subscriber changes nothing. -/
theorem access (h : Settled n s) (taken : SystemStep s e t) (unpushed : ∀ e', e ≠ .producer e') :
    SameControl s.ring t.ring := by
  cases taken with
  | producer => exact absurd rfl (unpushed _)
  | construct | initialized | readSequence | uninitialized => exact .refl s.ring
  | storeMode here =>
      rw [System.goto_ring]
      exact h.storeMode here
  | storeSize here =>
      rw [System.goto_ring]
      exact h.storeSize here
  | storeHead here =>
      rw [System.goto_ring]
      exact h.storeHead here
  | storeTail here =>
      rw [System.goto_ring]
      exact h.storeTail here

theorem step (h : Settled n s) (taken : SafeStep s e t) : Settled n t := by
  obtain ⟨taken, safe⟩ := taken
  cases taken with
  | producer taken => exact h.producer taken safe
  | construct here => exact h.goto (.refl _) _ trivial
  | @initialized q _ startFromBeginning here published =>
      refine h.goto (.refl _) q ?_
      cases startFromBeginning <;> trivial
  | readSequence here => exact h.goto (.refl _) _ trivial
  | @uninitialized q capacity _ here unpublished =>
      refine h.goto (.refl _) q ?_
      have tail : s.ring.tail = 0 := bne_eq_false_iff_eq.mp unpublished
      by_cases small : asInt32 capacity ≤ 1
      · rw [if_pos small]
        trivial
      · rw [if_neg small]
        obtain published | contradiction | ⟨head, size⟩ := safe
        · exact absurd tail published
        · exact absurd contradiction small
        · exact ⟨size, head, tail⟩
  | storeMode here =>
      have keeps := h.keeps_at here
      exact h.goto (h.storeMode here) _ ⟨keeps.1, keeps.2.1, keeps.2.2⟩
  | storeSize here =>
      have keeps := h.keeps_at here
      exact h.goto (h.storeSize here) _ ⟨keeps.2.1, keeps.2.2⟩
  | storeHead here => exact h.goto (h.storeHead here) _ (h.keeps_at here).2
  | storeTail here => exact h.goto (h.storeTail here) _ trivial

/-- The first step that breaks the condition can be followed by stores of a subscriber that change
the ring. -/
theorem disturbed (h : Settled n s) (taken : SystemStep s e t) (broken : ¬e.Safe s) :
    ∃ events u, (∀ e' ∈ events, ∃ q, e' = .access q) ∧ Run SystemStep t events u ∧
      ¬SameControl t.ring u.ring := by
  cases taken with
  | construct | readSequence | storeMode | storeSize | storeHead | storeTail =>
      exact absurd trivial broken
  | initialized here published => exact absurd (.inl (bne_iff_ne.mp published)) broken
  | @uninitialized q capacity _ here unpublished =>
      have tail : s.ring.tail = 0 := bne_eq_false_iff_eq.mp unpublished
      obtain ⟨-, size, other⟩ : s.ring.tail = 0 ∧ ¬asInt32 capacity ≤ 1 ∧
          ¬(s.ring.head = 0 ∧ s.ring.ringSize = asInt32 capacity) := by
        simpa only [SystemEvent.Safe, AttachSafe, not_or, not_not] using broken
      rw [if_neg size]
      refine ⟨_, _, by simp, run_init s q s.ring size, fun same => ?_⟩
      rw [System.goto_ring, System.goto_ring, sameControl_init_iff h.sized _ tail] at same
      exact same.elim size other
  | @producer e t taken =>
      cases e with
      | silent => exact absurd trivial broken
      | claim p sequence data =>
          obtain ⟨q, before⟩ := not_forall_not.mp broken
          have head : t.ring.head ≠ 0 := by
            cases taken
            exact Nat.succ_ne_zero _
          have late : (s.subs q).BeforeTail := before.tail
          obtain ⟨events, u, own, run, -, zero⟩ :=
            run_rest (s := { s with shared := t }) (q := q) late
          exact ⟨events, u, fun e' listed => ⟨q, own e' listed⟩, run,
            fun same => head (same.head.symm.trans (zero before))⟩
      | complete p sequence =>
          obtain ⟨q, before⟩ := not_forall_not.mp broken
          have tail : t.ring.tail ≠ 0 := by
            cases taken
            exact Nat.succ_ne_zero _
          obtain ⟨events, u, own, run, zero, -⟩ :=
            run_rest (s := { s with shared := t }) (q := q) before
          exact ⟨events, u, fun e' listed => ⟨q, own e' listed⟩, run,
            fun same => tail (same.tail.symm.trans zero)⟩

end Settled

/-! ## Producers left behind -/

/-- `prod.head` is behind `prod.tail`, no producer holds a claim or can win one, and no subscriber
is in `init`. -/
structure Stuck (s : System ι β P Q) : Prop where
  behind : s.ring.head + 1 = s.ring.tail
  unclaimed : ∀ p, (s.shared.procs p).claimed = none
  lost : ∀ p data prodHead, s.shared.procs p = .compareAndSwap data prodHead →
    prodHead ≠ s.ring.head
  stored : ∀ q, ¬(s.subs q).BeforeTail

namespace Stuck

theorem of_idle {s : System ι β P Q} (idle : ∀ p, s.shared.procs p = .idle)
    (behind : s.ring.head + 1 = s.ring.tail) (stored : ∀ q, ¬(s.subs q).BeforeTail) :
    Stuck s := by
  refine ⟨behind, ?_, ?_, stored⟩
  · intro p
    rw [idle p]
    rfl
  · intro p data prodHead here
    rw [idle p] at here
    cases here

variable {s t : System ι β P Q} {e : SystemEvent ι β P Q}

theorem producer [DecidableEq P] (h : Stuck s) {p : P} {pc : Pc ι β} (unclaimed : pc.claimed = none)
    (lost : ∀ data prodHead, pc = .compareAndSwap data prodHead → prodHead ≠ s.ring.head) :
    Stuck { s with shared := s.shared.goto p pc } := by
  refine ⟨h.behind, ?_, ?_, h.stored⟩
  · exact State.goto_forall (motive := fun _ pc => pc.claimed = none) unclaimed
      fun q _ => h.unclaimed q
  · exact State.goto_forall (motive := fun _ pc => ∀ data prodHead,
      pc = .compareAndSwap data prodHead → prodHead ≠ s.ring.head) lost fun q _ => h.lost q

theorem subscriber [DecidableEq Q] (h : Stuck s) (q : Q) {pc : SubPc} (stored : ¬pc.BeforeTail) :
    Stuck (s.goto s.ring q pc) :=
  ⟨h.behind, h.unclaimed, h.lost, (Function.forall_update_iff s.subs fun _ pc =>
    ¬pc.BeforeTail).mpr ⟨stored, fun other _ => h.stored other⟩⟩

variable [DecidableEq ι] [DecidableEq P] [DecidableEq Q]

/-- No step of a producer or of a subscriber changes that. -/
theorem step (h : Stuck s) (taken : SystemStep s e t) : Stuck t ∧ t.ring = s.ring := by
  have none : ∀ {p c}, (s.shared.procs p).claimed ≠ some c := by
    intro p c holds
    rw [h.unclaimed p] at holds
    cases holds
  have stores : ∀ {q pc}, s.subs q = pc → ¬pc.BeforeTail := by
    rintro q _ rfl
    exact h.stored q
  cases taken with
  | construct here => exact ⟨h.subscriber _ (by rintro ⟨⟩), rfl⟩
  | @initialized q capacity startFromBeginning here published =>
      refine ⟨h.subscriber _ ?_, rfl⟩
      cases startFromBeginning <;> rintro ⟨⟩
  | readSequence here => exact ⟨h.subscriber _ (by rintro ⟨⟩), rfl⟩
  | uninitialized here unpublished =>
      have tail : s.ring.tail = 0 := bne_eq_false_iff_eq.mp unpublished
      have behind := h.behind
      omega
  | storeMode here => exact absurd trivial (stores here)
  | storeSize here => exact absurd trivial (stores here)
  | storeHead here => exact absurd trivial (stores here)
  | storeTail here => exact absurd trivial (stores here)
  | producer taken =>
      cases taken with
      | call here data => exact ⟨h.producer rfl (by rintro _ _ ⟨⟩), rfl⟩
      | readHead here => exact ⟨h.producer rfl (by rintro _ _ ⟨⟩), rfl⟩
      | full here full => exact ⟨h.producer rfl (by rintro _ _ ⟨⟩), rfl⟩
      | room here room =>
          -- a value of `prod.head` that passes the test is an old one
          refine ⟨h.producer rfl ?_, rfl⟩
          rintro _ _ ⟨⟩ current
          exact room (current ▸ h.behind)
      | lost here changed => exact ⟨h.producer rfl (by rintro _ _ ⟨⟩), rfl⟩
      | won here unchanged => exact absurd unchanged.symm (h.lost _ _ _ here)
      | storeWord here word => exact absurd (congrArg Pc.claimed here) none
      | copied here complete => exact absurd (congrArg Pc.claimed here) none
      | wait here other => exact absurd (congrArg Pc.claimed here) none
      | turn here own => exact absurd (congrArg Pc.claimed here) none
      | publish here => exact absurd (congrArg Pc.claimed here) none

theorem run {events : List (SystemEvent ι β P Q)} (h : Stuck s)
    (run : Run SystemStep s events t) : t.ring = s.ring := by
  have kept := run.invariant (I := fun _ t => Stuck t ∧ t.ring = s.ring) ⟨h, rfl⟩
    fun kept taken => by
      obtain ⟨stuck, same⟩ := kept
      obtain ⟨stuck', same'⟩ := stuck.step taken
      exact ⟨stuck', same'.trans same⟩
  exact kept.2

end Stuck

/-! ## The ring under attaching subscribers -/

variable [DecidableEq ι] [DecidableEq P] [DecidableEq Q] {s : System ι β P Q} {n : Nat}

/-- No producer is held up by the full test for good, and no step of a subscriber changes the ring.
A subscriber that nothing interrupts leaves it alone exactly if its test meets the condition, and
what breaks the condition can be followed by stores that change the ring. -/
structure Undisturbed (zero : ι → β) (s : System ι β P Q) : Prop where
  tail_le : s.ring.tail ≤ s.ring.head
  stale : ∀ p data prodHead, s.shared.procs p = .testTail data prodHead →
    prodHead + 1 = s.ring.tail → prodHead < s.ring.head
  claims : ∀ p data, s.shared.procs p = .readHead data →
    ∃ t, Run Step s.shared [.silent, .silent, .claim p (s.ring.head + 1) data] t
  access : ∀ e t, SystemStep s e t → (∀ e', e ≠ .producer e') → SameControl s.ring t.ring
  attach : ∀ capacity requireExisting startFromBeginning ring sub,
    construct zero (some s.ring) capacity requireExisting startFromBeginning = some (ring, sub) →
      (SameControl s.ring ring ↔ AttachSafe s.ring (validateCapacity capacity))
  broken : ∀ e t, SystemStep s e t → ¬e.Safe s → ∃ events u,
    (∀ e' ∈ events, ∃ q, e' = .access q) ∧ Run SystemStep t events u ∧ ¬SameControl t.ring u.ring

theorem Settled.undisturbed (h : Settled n s) (zero : ι → β) : Undisturbed zero s := by
  have tail_le : s.shared.ring.tail ≤ s.shared.ring.head := h.order.tail_le
  refine ⟨tail_le, ?_, ?_, fun e t => h.access, ?_, fun e t => h.disturbed⟩
  · intro p data prodHead _ full
    exact h.order.lt_of_full full
  · intro p data here
    have run := run_claim s.shared.ring s.shared.procs p data (by omega)
    rw [State.goto_eq_self here] at run
    exact ⟨_, run⟩
  · intro capacity requireExisting startFromBeginning ring sub attached
    exact sameControl_iff h.sized attached

/-- Any number of producers, and any number of subscribers of any capacities, as long as their
steps meet the condition. -/
theorem attach_undisturbed (zero : ι → β) (memory : Option (K4RingBuffer (ι → β)))
    (capacity : Nat) (isCreator : Bool)
    (created : (openOrCreate zero memory isCreator).2 = true)
    (sized : 1 < asInt32 (MqPub.validateCapacity capacity))
    {events : List (SystemEvent ι β P Q)}
    (run : Run SafeStep (System.start (MqPub.construct zero memory capacity isCreator).1)
      events s) : Undisturbed zero s := by
  rw [MqPub.construct_of_created created] at run
  obtain ⟨n, len⟩ := Int.eq_ofNat_of_zero_le (show 0 ≤ asInt32 (MqPub.validateCapacity capacity) by
    omega)
  have high := (asInt32_bounds (MqPub.validateCapacity capacity)).2
  rw [len] at run sized high
  have start : Settled n (System.start (P := P) (Q := Q) ((zeroed zero).init n).1) := by
    obtain ⟨head, tail⟩ := init_counters (zeroed zero) sized
    exact .start (init_sized (by omega) (by omega)) (head.trans tail.symm)
  have settled : Settled n s := run.invariant (I := fun _ s => Settled n s) start
    fun kept taken => kept.step taken
  exact settled.undisturbed zero

/-- A subscriber of the publisher's capacity initialises the ring before the first message. A
producer begins to push meanwhile and claims the first number when the stores are done. -/
theorem attach_undisturbed_two : ∃ s : System Unit Nat Bool Bool, s.ring.head = 1 ∧
    Undisturbed (fun _ => 0) s := by
  obtain ⟨ring, opened⟩ : ∃ ring, (MqPub.construct (fun _ : Unit => 0) none 16 true).1 = ring :=
    ⟨_, rfl⟩
  have tail : ring.tail = 0 := by
    rw [← opened]
    decide +kernel
  have safe : AttachSafe ring (validateCapacity 16) := by
    rw [← opened]
    unfold AttachSafe
    decide +kernel
  have size : ¬asInt32 (validateCapacity 16) ≤ 1 := by decide +kernel
  have start : Run SafeStep (System.start (P := Bool) (Q := Bool) ring) [] (System.start ring) :=
    .refl
  have tested := ((start.snoc ⟨.construct (q := true) rfl 16 false, trivial⟩).snoc
    ⟨.producer (.call (p := true) rfl fun _ => 7), trivial⟩).snoc
    ⟨.uninitialized (q := true) rfl (bne_eq_false_iff_eq.mpr tail), safe⟩
  rw [if_neg size] at tested
  have initialized := ((((tested.snoc ⟨.storeMode (q := true) rfl, trivial⟩).snoc
    ⟨.storeSize (q := true) rfl, trivial⟩).snoc ⟨.storeHead (q := true) rfl, trivial⟩).snoc
    ⟨.producer (.readHead (p := true) rfl), trivial⟩).snoc ⟨.storeTail (q := true) rfl, trivial⟩
  have claimed := (initialized.snoc
    ⟨.producer (.room (p := true) rfl (Nat.succ_ne_zero 0)), trivial⟩).snoc
    ⟨.producer (.won (p := true) rfl rfl), fun q => by cases q <;> exact id⟩
  rw [← opened] at claimed
  exact ⟨_, rfl, attach_undisturbed _ none 16 true rfl (by decide +kernel) claimed⟩

/-- A producer has claimed the first number, a subscriber of the same capacity attaches and
takes the claim back, and the producer publishes: the ring then looks full for ever. -/
theorem attach_takes_claim_back :
    ∃ (events attaching events' : List (SystemEvent Unit Nat Bool Bool))
      (s s' t : System Unit Nat Bool Bool),
    Run SystemStep (System.start (MqPub.construct (fun _ => 0) none 16 true).1) events s ∧
    Run SystemStep s attaching s' ∧ (∀ e ∈ attaching, ∀ e', e ≠ .producer e') ∧
    s.ring.head = 1 ∧ s'.ring.head = 0 ∧
    Run SystemStep s' events' t ∧ t.ring.head = 0 ∧ t.ring.tail = 1 ∧
    ∀ later u, Run SystemStep t later u → u.ring = t.ring := by
  have size : 1 < asInt32 (validateCapacity 16) := by decide +kernel
  let idle : Bool → Pc Unit Nat := fun _ => .idle
  let data : Unit → Nat := fun _ => 7
  obtain ⟨ring, opened⟩ : ∃ ring, (MqPub.construct (fun _ : Unit => 0) none 16 true).1 = ring :=
    ⟨_, rfl⟩
  have head : ring.head = 0 := by
    rw [← opened]
    decide +kernel
  have tail : ring.tail = 0 := by
    rw [← opened]
    decide +kernel
  let claimed : Pc Unit Nat := .copy data ring.head (ring.sequenceIndex (ring.head + 1)) ∅
  have call : Step (State.mk ring idle) .silent ((State.mk ring idle).goto true (.readHead data)) :=
    .call rfl data
  have claim := (run_claim ring idle true data (by omega)).head call
  let s : System Unit Nat Bool Bool :=
    ⟨(State.mk { ring with head := ring.head + 1 } idle).goto true claimed, fun _ => .idle⟩
  have attached := construct_of_unpublished (fun _ : Unit => 0) 16 true false
    (show K4RingBuffer.tail s.ring = 0 from tail)
  obtain ⟨attaching, own, attach⟩ := run_attach s (q := true) rfl attached
  obtain ⟨head', tail'⟩ := init_counters s.ring size
  obtain ⟨ring', reset⟩ : ∃ ring', (s.ring.init (asInt32 (validateCapacity 16))).1 = ring' :=
    ⟨_, rfl⟩
  rw [reset] at attach head' tail'
  have all : ∀ word, word ∈ [()] := fun _ => List.mem_singleton_self ()
  obtain ⟨finishing, finish⟩ := run_finish ring' idle true data
    (ring.sequenceIndex (ring.head + 1)) rfl all (tail'.trans head.symm)
  have settled : ∀ q : Bool, ¬SubPc.BeforeTail (Function.update (fun _ => SubPc.idle) true
      (.ready ⟨validateCapacity 16, 0⟩) q) := by
    rintro (_ | _) ⟨⟩
  have stuck : Stuck (System.mk (State.mk { ring' with
      tail := ring.head + 1
      ring := Function.update ring'.ring (ring.sequenceIndex (ring.head + 1)) data } idle)
      (Function.update (fun _ : Bool => SubPc.idle) true (.ready ⟨validateCapacity 16, 0⟩))) :=
    .of_idle (fun _ => rfl) (congrArg (· + 1) (head'.trans head.symm)) settled
  rw [opened]
  refine ⟨_, attaching, _, s, _, _, run_producer _ claim, attach, own, congrArg (· + 1) head, head',
    run_producer _ finish, head', congrArg (· + 1) head, fun later u run => stuck.run run⟩

end RazorCrypto.Mq
