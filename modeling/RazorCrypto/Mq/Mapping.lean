import Mathlib.Algebra.GroupWithZero.Nat
import RazorCrypto.Foundation.Transition
import RazorCrypto.Mq.Endpoints

/-!
# Slots and mappings

Each party of a message queue maps the shared memory for its own capacity, but finds slots
with the size that the ring was initialised with last, whoever did it. The two are never
compared. A slot lies inside the mapping of each party and inside the shared memory exactly
if the last successful `init` was given a size that is not larger than any of theirs.

A party that creates the queue unlinks the old shared memory, which the parties that mapped
it before keep. So all memory that ever had the name is listed.
-/

universe u

namespace RazorCrypto.Mq.Mapping

open K4RingBuffer MachineInt Transition

variable {τ : Type u}

/-- Shared memory and the number of elements it was created for. -/
structure SharedObject (τ : Type u) where
  ring : K4RingBuffer τ
  elements : Nat

/-- A publisher or a subscriber: the memory it mapped and its `m_capacity`. -/
structure Party where
  object : Nat
  capacity : Nat

/-- The first `count` objects had the name of the queue, the last of them has it now. -/
structure State (τ : Type u) where
  objects : Nat → SharedObject τ
  count : Nat
  parties : List Party

/-- Nothing was constructed yet. -/
def State.empty (zero : τ) : State τ := ⟨fun _ => ⟨zeroed zero, 0⟩, 0, []⟩

/-- What the name leads to. -/
def State.memory (s : State τ) : Option (K4RingBuffer τ) :=
  if s.count = 0 then none else some (s.objects (s.count - 1)).ring

/-- The content of an object changes. -/
def State.write (s : State τ) (object : Nat) (ring : K4RingBuffer τ) : State τ :=
  { s with objects := Function.update s.objects object { s.objects object with ring := ring } }

theorem State.write_self (s : State τ) (object : Nat) (ring : K4RingBuffer τ) :
    ((s.write object ring).objects object).ring = ring := by
  dsimp only [write]
  rw [Function.update_self]

theorem State.write_of_ne (s : State τ) {object object' : Nat} (ne : object' ≠ object)
    (ring : K4RingBuffer τ) : (s.write object ring).objects object' = s.objects object' :=
  Function.update_of_ne ne ..

/-- A party mapped the queue and left `ring` in it. -/
def State.mapped (s : State τ) (created : Bool) (ring : K4RingBuffer τ) (capacity : Nat) :
    State τ :=
  if created then
    { objects := Function.update s.objects s.count ⟨ring, capacity⟩
      count := s.count + 1
      parties := s.parties ++ [⟨s.count, capacity⟩] }
  else
    { s.write (s.count - 1) ring with parties := s.parties ++ [⟨s.count - 1, capacity⟩] }

/-- What is seen of a step: the memory a new party mapped, its capacity and whether it called
`init`. -/
inductive Event
  | constructed (object capacity : Nat) (initialises : Bool)
  | pushed

/-- A constructor, with any requested capacity, or a completed push. -/
inductive Step (zero : τ) : State τ → Event → State τ → Prop
  | pub {s ring pub capacity isCreator created} (size : capacity < 2 ^ 64)
      (opened : (openOrCreate zero s.memory isCreator).2 = created)
      (built : MqPub.construct zero s.memory capacity isCreator = (ring, pub)) :
      Step zero s (.constructed (if created then s.count else s.count - 1) pub.capacity created)
        (s.mapped created ring pub.capacity)
  | sub {s ring sub capacity requireExisting startFromBeginning memory created}
      (size : capacity < 2 ^ 64)
      (opened : openOrCreate zero s.memory false = (memory, created))
      (built : MqSub.construct zero s.memory capacity requireExisting startFromBeginning =
        some (ring, sub)) :
      Step zero s (.constructed (if created then s.count else s.count - 1) sub.capacity
          (!MqSub.isSharedMemoryInitialized memory))
        (s.mapped created ring sub.capacity)
  | push {s party data isSingleP ring slot} (member : party ∈ s.parties)
      (pushed : (s.objects party.object).ring.push data isSingleP = some (ring, slot)) :
      Step zero s .pushed (s.write party.object ring)

/-- The size of the ring after `init` was called with a capacity. -/
def initSize (size capacity : Nat) : Nat :=
  if 1 < asInt32 capacity then (asInt32 capacity).toNat else size

/-- The size that an object was initialised with last, zero if it never was. -/
def geometry (object : Nat) (events : List Event) : Nat :=
  events.foldl (fun size event =>
    match event with
    | .constructed object' capacity true =>
        if object' = object then initSize size capacity else size
    | _ => size) 0

/-! ## One ring -/

/-- The ring has the size `n`, or was never initialised. -/
def HasSize (n : Nat) (ring : K4RingBuffer τ) : Prop :=
  (n = 0 ∧ ring.ringSize = 0 ∧ ring.indexMode = 0) ∨ Sized n ring

variable {n capacity elements : Nat} {ring ring' : K4RingBuffer τ}

theorem hasSize_zeroed (zero : τ) : HasSize 0 (zeroed zero) := Or.inl ⟨rfl, rfl, rfl⟩

theorem HasSize.init (h : HasSize n ring) (capacity : Nat) :
    HasSize (initSize n capacity) (ring.init (asInt32 capacity)).1 := by
  by_cases size : 1 < asInt32 capacity
  · have high := (asInt32_bounds capacity).2
    obtain ⟨m, len⟩ := Int.eq_ofNat_of_zero_le (show 0 ≤ asInt32 capacity by omega)
    rw [initSize, if_pos size, len]
    exact Or.inr (init_sized (by omega) (by omega))
  · rw [initSize, if_neg size, K4RingBuffer.init, if_pos (by omega)]
    exact h

theorem push_geometry {data : τ} {isSingleP : Bool} {slot : Nat}
    (pushed : ring.push data isSingleP = some (ring', slot)) :
    ring'.ringSize = ring.ringSize ∧ ring'.indexMode = ring.indexMode := by
  rw [K4RingBuffer.push] at pushed
  split at pushed
  · cases pushed
    exact ⟨rfl, rfl⟩
  · split at pushed
    · cases pushed
    · split at pushed
      · cases pushed
      · cases pushed
        exact ⟨rfl, rfl⟩

theorem HasSize.push (h : HasSize n ring) {data : τ} {isSingleP : Bool} {slot : Nat}
    (pushed : ring.push data isSingleP = some (ring', slot)) : HasSize n ring' := by
  obtain ⟨ringSize, indexMode⟩ := push_geometry pushed
  rcases h with ⟨none, ringSize₀, indexMode₀⟩ | sized
  · exact Or.inl ⟨none, ringSize.trans ringSize₀, indexMode.trans indexMode₀⟩
  · exact Or.inr ⟨sized.two, sized.int, ringSize.trans sized.ringSize,
      indexMode.trans sized.indexMode⟩

/-- Slots are bounded by the size. Without a size there is no bound. -/
theorem HasSize.inside_iff (h : HasSize n ring) (bound : capacity < 2 ^ 64) :
    (∀ sequence, ring.sequenceIndex sequence < capacity ∧ ring.sequenceIndex sequence < elements) ↔
      0 < n ∧ n ≤ capacity ∧ n ≤ elements := by
  rcases h with ⟨none, ringSize, indexMode⟩ | sized
  · refine iff_of_false ?_ (by omega)
    intro inside
    have slot : ring.sequenceIndex capacity = capacity := by
      rw [sequenceIndex, if_pos indexMode, ringSize]
      change capacity &&& asUInt64 (-1) = capacity
      rw [asUInt64_neg_one]
      exact (Nat.and_two_pow_sub_one_eq_mod capacity 64).trans (Nat.mod_eq_of_lt bound)
    have here := (inside capacity).1
    omega
  · have two := sized.two
    simp only [sized.sequenceIndex]
    constructor
    · intro inside
      have last := inside (n - 1)
      rw [Nat.mod_eq_of_lt (by omega)] at last
      omega
    · rintro ⟨pos, own, file⟩ sequence
      have below := Nat.mod_lt sequence pos
      omega

/-! ## Runs -/

variable {zero : τ} {s t : State τ} {e : Event} {events : List Event}

theorem geometry_pushed (object : Nat) (events : List Event) :
    geometry object (events ++ [.pushed]) = geometry object events := by
  rw [geometry, List.foldl_append]
  rfl

theorem geometry_of_ne {object object' : Nat} (ne : object' ≠ object) (events : List Event)
    (capacity : Nat) (initialises : Bool) :
    geometry object (events ++ [.constructed object' capacity initialises]) =
      geometry object events := by
  rw [geometry, List.foldl_append]
  cases initialises with
  | true => exact if_neg ne
  | false => rfl

theorem geometry_self (object : Nat) (events : List Event) (capacity : Nat)
    (initialises : Bool) :
    geometry object (events ++ [.constructed object capacity initialises]) =
      if initialises then initSize (geometry object events) capacity
      else geometry object events := by
  rw [geometry, List.foldl_append]
  cases initialises with
  | true => exact (if_pos rfl).trans (if_pos rfl).symm
  | false => exact (if_neg Bool.false_ne_true).symm

/-- The memory behind the name before a constructor calls `init`. -/
def Opened (zero : τ) (s : State τ) (created : Bool) (memory : K4RingBuffer τ) : Prop :=
  (created = true ∧ memory = zeroed zero) ∨
    (created = false ∧ s.count ≠ 0 ∧ memory = (s.objects (s.count - 1)).ring)

theorem opened_of_openOrCreate {create created : Bool} {memory : K4RingBuffer τ}
    (opened : openOrCreate zero s.memory create = (memory, created)) :
    Opened zero s created memory := by
  unfold openOrCreate State.memory at opened
  cases create with
  | true =>
      cases opened
      exact Or.inl ⟨rfl, rfl⟩
  | false =>
      by_cases none : s.count = 0
      · rw [if_pos none] at opened
        cases opened
        exact Or.inl ⟨rfl, rfl⟩
      · rw [if_neg none] at opened
        cases opened
        exact Or.inr ⟨rfl, none, rfl⟩

/-- What the constructor of a subscriber leaves in the memory it opened. -/
theorem construct_sub {memory : K4RingBuffer τ} {opened : Option (K4RingBuffer τ)}
    {created requireExisting startFromBeginning : Bool} {sub : MqSub}
    (open_eq : openOrCreate zero opened false = (memory, created))
    (built : MqSub.construct zero opened capacity requireExisting startFromBeginning =
      some (ring, sub)) :
    sub.capacity = MqSub.validateCapacity capacity ∧
      ring = if !MqSub.isSharedMemoryInitialized memory then
        (memory.init (asInt32 (MqSub.validateCapacity capacity))).1 else memory := by
  rw [MqSub.construct, open_eq] at built
  dsimp only at built
  split at built
  · cases built
  · cases initialized : MqSub.isSharedMemoryInitialized memory with
    | true =>
        rw [initialized] at built
        cases built
        exact ⟨rfl, (if_neg Bool.false_ne_true).symm⟩
    | false =>
        rw [initialized] at built
        cases built
        exact ⟨rfl, (if_pos rfl).symm⟩

/-- A step maps the queue for a new party, which may call `init`, or pushes. -/
theorem step_cases (taken : Step zero s e t) :
    (∃ created capacity initialises memory, capacity < 2 ^ 64 ∧ Opened zero s created memory ∧
      e = .constructed (if created then s.count else s.count - 1) capacity initialises ∧
      t = s.mapped created
        (if initialises then (memory.init (asInt32 capacity)).1 else memory) capacity) ∨
    (∃ party ∈ s.parties, ∃ data isSingleP ring slot,
      (s.objects party.object).ring.push data isSingleP = some (ring, slot) ∧ e = .pushed ∧
      t = s.write party.object ring) := by
  cases taken with
  | @pub ring pub capacity isCreator created size opened built =>
      refine Or.inl ⟨created, pub.capacity, created, (openOrCreate zero s.memory isCreator).1, ?_,
        opened_of_openOrCreate (Prod.ext rfl opened), rfl, ?_⟩
      · cases built
        exact asUInt64_lt _
      · subst opened
        cases built
        rfl
  | @sub ring sub capacity requireExisting startFromBeginning memory created size opened built =>
      obtain ⟨own, left⟩ := construct_sub opened built
      refine Or.inl ⟨created, sub.capacity, _, memory, ?_, opened_of_openOrCreate opened, rfl, ?_⟩
      · rw [own, MqSub.validateCapacity]
        split
        · decide
        · exact size
      · rw [left, own]
  | push member pushed => exact Or.inr ⟨_, member, _, _, _, _, pushed, rfl, rfl⟩

/-- Each ring has the size that was given to its last `init`. -/
structure Invariant (events : List Event) (s : State τ) : Prop where
  parties : ∀ party ∈ s.parties, party.object < s.count ∧ party.capacity < 2 ^ 64
  fresh : ∀ object, s.count ≤ object → geometry object events = 0
  rings : ∀ object, object < s.count → HasSize (geometry object events) (s.objects object).ring

theorem invariant_empty : Invariant [] (State.empty zero) := by
  refine ⟨?_, fun _ _ => rfl, ?_⟩
  · intro party member
    cases member
  · intro object inside
    cases inside

theorem Invariant.push (h : Invariant events s) {party : Party} {data : τ}
    {isSingleP : Bool} {slot : Nat}
    (pushed : (s.objects party.object).ring.push data isSingleP = some (ring, slot)) :
    Invariant (events ++ [.pushed]) (s.write party.object ring) := by
  refine ⟨h.parties, ?_, ?_⟩
  · intro object outside
    rw [geometry_pushed]
    exact h.fresh object outside
  · intro object inside
    rw [geometry_pushed]
    by_cases same : object = party.object
    · subst same
      rw [s.write_self]
      exact (h.rings _ inside).push pushed
    · rw [s.write_of_ne same]
      exact h.rings object inside

/-- A ring that a new party may have initialised. -/
theorem HasSize.initialised {memory : K4RingBuffer τ} {n : Nat} (old : HasSize n memory)
    (initialises : Bool) (capacity : Nat) :
    HasSize (if initialises then initSize n capacity else n)
      (if initialises then (memory.init (asInt32 capacity)).1 else memory) := by
  cases initialises with
  | true =>
      rw [if_pos rfl, if_pos rfl]
      exact old.init capacity
  | false =>
      rw [if_neg Bool.false_ne_true, if_neg Bool.false_ne_true]
      exact old

/-- A party that maps a new object. -/
theorem Invariant.create (h : Invariant events s) {initialises : Bool} (size : capacity < 2 ^ 64)
    (fits : HasSize (if initialises then initSize 0 capacity else 0) ring) :
    Invariant (events ++ [.constructed s.count capacity initialises])
      (s.mapped true ring capacity) := by
  rw [State.mapped, if_pos rfl]
  have fresh := h.fresh s.count (Nat.le_refl _)
  refine ⟨?_, ?_, ?_⟩
  · intro party member
    rcases List.mem_append.mp member with old | new
    · obtain ⟨inside, bound⟩ := h.parties party old
      exact ⟨Nat.lt_succ_of_lt inside, bound⟩
    · rw [List.mem_singleton.mp new]
      exact ⟨Nat.lt_succ_self _, size⟩
  · intro object outside
    have later : s.count < object := outside
    rw [geometry_of_ne (Nat.ne_of_lt later)]
    exact h.fresh object (Nat.le_of_lt later)
  · intro object inside
    by_cases same : object = s.count
    · subst same
      rw [geometry_self, fresh]
      dsimp only
      rw [Function.update_self]
      exact fits
    · have before : object < s.count := lt_of_le_of_ne (Nat.le_of_lt_succ inside) same
      rw [geometry_of_ne (Ne.symm same)]
      dsimp only
      rw [Function.update_of_ne same]
      exact h.rings object before

/-- A party that maps the newest object. -/
theorem Invariant.attach (h : Invariant events s) {initialises : Bool} (size : capacity < 2 ^ 64)
    (some : s.count ≠ 0)
    (fits : HasSize
      (if initialises then initSize (geometry (s.count - 1) events) capacity
        else geometry (s.count - 1) events) ring) :
    Invariant (events ++ [.constructed (s.count - 1) capacity initialises])
      (s.mapped false ring capacity) := by
  rw [State.mapped, if_neg Bool.false_ne_true]
  have last : s.count - 1 < s.count := by omega
  refine ⟨?_, ?_, ?_⟩
  · intro party member
    rcases List.mem_append.mp member with old | new
    · exact h.parties party old
    · rw [List.mem_singleton.mp new]
      exact ⟨last, size⟩
  · intro object outside
    have later : s.count ≤ object := outside
    rw [geometry_of_ne (by omega)]
    exact h.fresh object outside
  · intro object inside
    by_cases same : object = s.count - 1
    · subst same
      rw [geometry_self]
      exact (s.write_self _ ring).symm ▸ fits
    · rw [geometry_of_ne (Ne.symm same)]
      exact (s.write_of_ne same ring).symm ▸ h.rings object inside

/-- A new party leaves a ring of the new size in the object it mapped. -/
theorem Invariant.construct (h : Invariant events s) {created initialises : Bool}
    {memory : K4RingBuffer τ} (size : capacity < 2 ^ 64) (opened : Opened zero s created memory) :
    Invariant
      (events ++ [.constructed (if created then s.count else s.count - 1) capacity initialises])
      (s.mapped created (if initialises then (memory.init (asInt32 capacity)).1 else memory)
        capacity) := by
  rcases opened with ⟨rfl, rfl⟩ | ⟨rfl, some, rfl⟩
  · rw [if_pos rfl]
    exact h.create size ((hasSize_zeroed zero).initialised initialises capacity)
  · rw [if_neg Bool.false_ne_true]
    have old := h.rings (s.count - 1) (by omega)
    exact h.attach size some (old.initialised initialises capacity)

theorem Invariant.step (h : Invariant events s) (taken : Step zero s e t) :
    Invariant (events ++ [e]) t := by
  rcases step_cases taken with ⟨created, capacity, initialises, memory, size, opened, rfl, rfl⟩ |
    ⟨party, -, data, isSingleP, ring, slot, pushed, rfl, rfl⟩
  · exact h.construct size opened
  · exact h.push pushed

theorem Invariant.run (run : Run (Step zero) (State.empty zero) events s) :
    Invariant events s :=
  run.invariant invariant_empty Invariant.step

/-- Every slot of every sequence number lies inside the party's own mapping and inside the
memory, exactly if the last successful `init` of that memory had a size of at most both. -/
theorem slots_inside_iff (run : Run (Step zero) (State.empty zero) events s) :
    (∀ party ∈ s.parties, ∀ sequence,
      (s.objects party.object).ring.sequenceIndex sequence < party.capacity ∧
      (s.objects party.object).ring.sequenceIndex sequence < (s.objects party.object).elements) ↔
    ∀ party ∈ s.parties, 0 < geometry party.object events ∧
      geometry party.object events ≤ party.capacity ∧
      geometry party.object events ≤ (s.objects party.object).elements := by
  have kept := Invariant.run run
  refine forall₂_congr fun party member => ?_
  obtain ⟨inside, bound⟩ := kept.parties party member
  exact (kept.rings party.object inside).inside_iff bound

/-- A ring of 16 slots as a publisher creates it. -/
def created16 : K4RingBuffer Nat := ((zeroed 0).init 16).1

/-- A publisher that creates the queue for 16 messages. -/
theorem run_publisher : Run (Step (0 : Nat)) (State.empty 0) [.constructed 0 16 true]
    ((State.empty 0).mapped true created16 16) := by
  have validated : MqPub.validateCapacity 16 = 16 := by decide +kernel
  have sixteen : asInt32 16 = 16 := asInt32_of_mem (by decide) (by decide)
  have built : MqPub.construct 0 (State.empty 0).memory 16 true = (created16, ⟨16⟩) := by
    refine Prod.ext ((MqPub.construct_of_created rfl).trans ?_) (congrArg MqPub.mk validated)
    rw [validated]
    exact congrArg (fun len => ((zeroed 0).init len).1) sixteen
  exact .single (.pub (by decide) rfl built)

theorem slots_inside_iff_sixteen : created16.sequenceIndex 21 < 16 := by
  have size : geometry 0 [.constructed 0 16 true] = 16 := by decide +kernel
  have inside := (slots_inside_iff run_publisher).mpr fun party member => by
    rw [List.mem_singleton.mp member]
    exact size.symm ▸ (⟨by decide, Nat.le_refl 16, Nat.le_refl 16⟩ : 0 < 16 ∧ 16 ≤ 16 ∧ 16 ≤ 16)
  exact (inside ⟨0, 16⟩ (List.mem_singleton_self _) 21).1

/-- A subscriber for 100 messages initialises the ring of 16 once more: message 16 then has a
slot outside. -/
theorem slot_outside : ∃ (events : List Event) (s : State Nat) (party : Party),
    Run (Step 0) (State.empty 0) events s ∧ party ∈ s.parties ∧ party.capacity = 16 ∧
      (s.objects party.object).elements = 16 ∧
      (s.objects party.object).ring.sequenceIndex 16 = 16 := by
  let first := (State.empty 0).mapped true created16 16
  have memory : first.memory = some created16 := rfl
  have built : MqSub.construct 0 first.memory 100 false false =
      some ((created16.init (asInt32 100)).1, ⟨100, 0⟩) := by
    rw [memory]
    exact MqSub.construct_of_unpublished 0 100 false false rfl
  have run := run_publisher.snoc (Step.sub (by decide) rfl built)
  refine ⟨_, _, ⟨0, 16⟩, run, List.mem_append_left _ (List.mem_singleton_self _), rfl, rfl, ?_⟩
  have sized : Sized 100 (created16.init (asInt32 100)).1 := by
    rw [asInt32_of_mem (by decide) (by decide)]
    exact init_sized (by decide) (by decide)
  exact sized.sequenceIndex 16

end RazorCrypto.Mq.Mapping
