import RazorCrypto.ShmQueue.Geometry

/-!
# Starting a `shared_memory_queue`

The process that creates the shared memory stores `magic_number` first, and the counters last.
Another process takes the former as the sign that it may go on. So it can push messages before
the creator has stored the counters, and the creator then sets them back: what was accepted
before its store of `tail` is lost.

Each store of the constructor and each access of `push` to a counter is a step of its own.
-/

universe u

namespace RazorCrypto.ShmQueue.Startup

open MachineInt SlotRing Transition

variable {τ : Type u}

/-- The store that the constructor of the creator does next. -/
inductive Creator
  | magicNumber
  | queueSize
  | tail
  | head
  | finished
deriving DecidableEq

/-- The other process: in the loop of its constructor, after it, and in `push` with what the
call has loaded so far. -/
inductive Attacher (τ : Type u)
  | waiting
  | loadingTail
  | idle
  | loadedHead (buf : τ) (len : Int) (curHead : Int)
  | storing (buf : τ) (len : Int) (curTail : Int)
  | stored (buf : τ) (curTail : Int)

structure State (τ : Type u) where
  memory : SharedData τ
  creator : Creator
  attacher : Attacher τ

/-- Both processes start on memory that holds zeros. -/
def State.initial (items : Nat → Item τ) : State τ :=
  ⟨⟨0, 0, 0, 0, items⟩, .magicNumber, .waiting⟩

/-- What is seen of a step: the creator's store of `tail` and the two outcomes of a `push`. -/
inductive Event (τ : Type u)
  | silent
  | clearedTail
  | accepted (buf : τ)
  | dropped (buf : τ)

/-- One atomic step, with the sizes that the two constructors were given. -/
inductive Step (creator attacher : Int) : State τ → Event τ → State τ → Prop
  | storeMagicNumber {s} (next : s.creator = .magicNumber) :
      Step creator attacher s .silent
        { s with memory := { s.memory with magicNumber := MAGIC_NUMBER }, creator := .queueSize }
  | storeQueueSize {s} (next : s.creator = .queueSize) :
      Step creator attacher s .silent
        { s with
          memory := { s.memory with queueSize := asInt32 (getNextpowerof2 (asUInt64 creator)) }
          creator := .tail }
  | clearTail {s} (next : s.creator = .tail) :
      Step creator attacher s .clearedTail
        { s with memory := { s.memory with tail := 0 }, creator := .head }
  | clearHead {s} (next : s.creator = .head) :
      Step creator attacher s .silent
        { s with memory := { s.memory with head := 0 }, creator := .finished }
  | spin {s} (waiting : s.attacher = .waiting) (other : s.memory.magicNumber ≠ MAGIC_NUMBER) :
      Step creator attacher s .silent s
  | seen {s} (waiting : s.attacher = .waiting) (magic : s.memory.magicNumber = MAGIC_NUMBER) :
      Step creator attacher s .silent { s with attacher := .loadingTail }
  -- The member `_tail` that is loaded here is never read.
  | loadOwnTail {s} (loading : s.attacher = .loadingTail) :
      Step creator attacher s .silent { s with attacher := .idle }
  | pushLoadHead {s} (idle : s.attacher = .idle) (buf : τ) (len : Int) :
      Step creator attacher s .silent { s with attacher := .loadedHead buf len s.memory.head }
  | pushFull {s buf len curHead} (loaded : s.attacher = .loadedHead buf len curHead)
      (full : (s.memory.opened attacher).size ≤ asInt32 (s.memory.tail - curHead)) :
      Step creator attacher s (.dropped buf) { s with attacher := .idle }
  | pushPass {s buf len curHead} (loaded : s.attacher = .loadedHead buf len curHead)
      (free : ¬ (s.memory.opened attacher).size ≤ asInt32 (s.memory.tail - curHead)) :
      Step creator attacher s .silent { s with attacher := .storing buf len s.memory.tail }
  | storeItem {s buf len curTail} (storing : s.attacher = .storing buf len curTail) :
      Step creator attacher s .silent
        { s with
          memory := { s.memory with
            items := Function.update s.memory.items
              ((s.memory.opened attacher).slot curTail) ⟨len, buf⟩ }
          attacher := .stored buf curTail }
  | storeTail {s buf curTail} (stored : s.attacher = .stored buf curTail) :
      Step creator attacher s (.accepted buf)
        { s with memory := { s.memory with tail := asInt32 (curTail + 1) }, attacher := .idle }

/-- The accepted messages, in order. -/
def accepted (events : List (Event τ)) : List τ :=
  events.filterMap fun
    | .accepted buf => some buf
    | _ => none

/-- A step in which the creator stores its zero in `tail` only over a zero. -/
def ClearingStep (creator attacher : Int) (s : State τ) (e : Event τ) (t : State τ) : Prop :=
  Step creator attacher s e t ∧ (e = .clearedTail → s.memory.tail = 0)

/-- Each accepted message is pending: the counters say how many there are, and each one is in
its slot. -/
structure Pending (attacher : Int) (stored : List τ) (d : SharedData τ) : Prop where
  count : d.tail - d.head = stored.length
  kept : ∀ j (inside : j < stored.length),
    (d.items ((d.opened attacher).slot (d.head + j))).buf = stored[j]

/-! ## Runs -/

/-- What a call of `push` knows when `n` messages are stored. -/
def Attacher.Knows (bits : Nat) (items : Nat → Item τ) (n : Nat) : Attacher τ → Prop
  | .loadedHead _ _ curHead => curHead = 0
  | .storing _ _ curTail => curTail = n ∧ bits ≤ 30 ∧ n < 2 ^ bits
  | .stored buf curTail =>
    curTail = n ∧ bits ≤ 30 ∧ n < 2 ^ bits ∧ (items (n % 2 ^ bits)).buf = buf
  | _ => True

/-- Only the attaching process changes the counters and the slots. -/
structure Undisturbed (bits : Nat) (stored : List τ) (s : State τ) : Prop where
  head : s.memory.head = 0
  tail : s.memory.tail = stored.length
  room : stored.length ≤ 2 ^ bits
  kept : Holds (2 ^ bits) 0 (fun slot => (s.memory.items slot).buf) stored 0
  knows : s.attacher.Knows bits s.memory.items stored.length

namespace Undisturbed

variable {creator : Int} {size : PositiveInt} {stored : List τ} {s t : State τ} {e : Event τ}

/-- The header says nothing about the messages. -/
theorem header {bits : Nat} (h : Undisturbed bits stored s) (magicNumber queueSize : Int)
    (next : Creator) :
    Undisturbed bits stored
      { s with
        memory := { s.memory with magicNumber := magicNumber, queueSize := queueSize }
        creator := next } :=
  ⟨h.head, h.tail, h.room, h.kept, h.knows⟩

/-- The test of `push` passes only with a slot to spare. -/
theorem free (h : Undisturbed size.bits stored s)
    (free : ¬ (s.memory.opened size.value).size ≤ asInt32 (s.memory.tail - 0)) :
    size.bits ≤ 30 ∧ stored.length < 2 ^ size.bits := by
  have room := h.room
  have small : size.bits ≤ 30 := by
    by_contra large
    have bits : size.bits = 31 := by
      have le := size.bits_le
      omega
    rw [SharedData.opened_size_of_large size bits] at free
    exact free (asInt32_bounds _).1
  have le : 2 ^ size.bits ≤ 2 ^ 30 := Nat.pow_le_pow_right (by decide) small
  rw [SharedData.opened_size size small, h.tail, asInt32_of_mem (by omega) (by omega)] at free
  exact ⟨small, by omega⟩

theorem step (h : Undisturbed size.bits stored s) (taken : ClearingStep creator size.value s e t) :
    Undisturbed size.bits (stored ++ accepted [e]) t := by
  obtain ⟨taken, cleared⟩ := taken
  have same : ∀ {t : State τ}, Undisturbed size.bits stored t →
      Undisturbed size.bits (stored ++ []) t := by
    intro t h
    rwa [List.append_nil]
  cases taken with
  | storeMagicNumber => exact same (h.header MAGIC_NUMBER s.memory.queueSize .queueSize)
  | storeQueueSize => exact same (h.header s.memory.magicNumber _ .tail)
  | clearTail next =>
      exact same ⟨h.head, (cleared rfl).symm.trans h.tail, h.room, h.kept, h.knows⟩
  | clearHead next => exact same ⟨rfl, h.tail, h.room, h.kept, h.knows⟩
  | spin => exact same h
  | seen | loadOwnTail | pushFull => exact same ⟨h.head, h.tail, h.room, h.kept, trivial⟩
  | pushLoadHead => exact same ⟨h.head, h.tail, h.room, h.kept, h.head⟩
  | @pushPass buf len curHead loaded free =>
      have zero := h.knows
      rw [loaded] at zero
      change curHead = 0 at zero
      rw [zero] at free
      exact same ⟨h.head, h.tail, h.room, h.kept, h.tail, h.free free⟩
  | @storeItem buf len curTail storing =>
      have knows := h.knows
      rw [storing] at knows
      obtain ⟨at_, small, room⟩ := knows
      rw [at_, SharedData.opened_slot]
      have slots : (fun slot => (Function.update s.memory.items (stored.length % 2 ^ size.bits)
          ⟨len, buf⟩ slot).buf) = Function.update (fun slot => (s.memory.items slot).buf)
            ((stored.length + 0) % 2 ^ size.bits) buf :=
        Function.comp_update Item.buf _ _ _
      have kept : Holds (2 ^ size.bits) 0 (fun slot => (Function.update s.memory.items
          (stored.length % 2 ^ size.bits) ⟨len, buf⟩ slot).buf) stored 0 := by
        rw [slots]
        exact h.kept.update (Nat.le_refl _) (by omega) buf
      have item : (Function.update s.memory.items (stored.length % 2 ^ size.bits) ⟨len, buf⟩
          (stored.length % 2 ^ size.bits)).buf = buf := by
        rw [Function.update_self]
      exact same ⟨h.head, h.tail, h.room, kept, rfl, small, room, item⟩
  | @storeTail buf curTail pushing =>
      have knows := h.knows
      rw [pushing] at knows
      obtain ⟨at_, small, room, item⟩ := knows
      have le : 2 ^ size.bits ≤ 2 ^ 30 := Nat.pow_le_pow_right (by decide) small
      have length : (stored ++ [buf]).length = stored.length + 1 := List.length_append
      refine ⟨h.head, ?_, ?_, h.kept.extend item, trivial⟩
      · change asInt32 (curTail + 1) = ((stored ++ [buf]).length : Int)
        rw [at_, length, asInt32_of_mem (by omega) (by omega)]
        rfl
      · change (stored ++ [buf]).length ≤ _
        omega

theorem pending (h : Undisturbed size.bits stored s) : Pending size.value stored s.memory := by
  refine ⟨by rw [h.head, h.tail, Int.sub_zero], ?_⟩
  intro j inside
  rw [h.head, Int.zero_add, SharedData.opened_slot]
  exact h.kept j inside (Nat.zero_le j)

end Undisturbed

/-- In each run in which the creator stores its zero in `tail` before a message is accepted,
all accepted messages are pending, also after the end of its constructor. -/
theorem startup_pending {items : Nat → Item τ} {creator size : PositiveInt}
    {events : List (Event τ)} {s : State τ}
    (run : Run (ClearingStep creator.value size.value) (State.initial items) events s) :
    Pending size.value (accepted events) s.memory := by
  refine (run.invariant (I := fun events s => Undisturbed size.bits (accepted events) s)
    ⟨rfl, rfl, Nat.zero_le _, Holds.nil, trivial⟩ ?_).pending
  intro es s e t before taken
  have accepted_eq : accepted (es ++ [e]) = accepted es ++ accepted [e] := List.filterMap_append ..
  rw [accepted_eq]
  exact before.step taken

/-- Zero-filled memory with messages that are numbers. -/
def zeros (_ : Nat) : Item Nat := ⟨0, 0⟩

theorem room_for_one : ¬ asInt32 (getNextpowerof2 (asUInt64 4)) ≤ asInt32 (0 - 0) := by
  decide +kernel

/-- The creator finishes while the other process is attaching. -/
theorem startup_pending_one : ∃ events s, Run (ClearingStep 4 4) (State.initial zeros) events s ∧
    s.creator = .finished ∧ Pending 4 [7] s.memory := by
  have run : Run (ClearingStep 4 4) (State.initial zeros) _ _ :=
    .head ⟨.storeMagicNumber rfl, nofun⟩ <| .head ⟨.seen rfl rfl, nofun⟩ <|
    .head ⟨.storeQueueSize rfl, nofun⟩ <| .head ⟨.clearTail rfl, fun _ => rfl⟩ <|
    .head ⟨.loadOwnTail rfl, nofun⟩ <| .head ⟨.clearHead rfl, nofun⟩ <|
    .head ⟨.pushLoadHead rfl 7 4, nofun⟩ <| .head ⟨.pushPass rfl room_for_one, nofun⟩ <|
    .head ⟨.storeItem rfl, nofun⟩ <| .single ⟨.storeTail rfl, nofun⟩
  exact ⟨_, _, run, rfl, @startup_pending _ zeros ⟨4, by decide, by decide⟩
    ⟨4, by decide, by decide⟩ _ _ run⟩

/-- The other process attaches and pushes between the first two stores of the creator. When
both are done, the message is accepted and not pending. -/
theorem message_lost : ∃ events s, Run (Step 4 4) (State.initial zeros) events s ∧
    s.creator = .finished ∧ accepted events = [7] ∧ s.memory.tail - s.memory.head = 0 :=
  ⟨_, _, .head (.storeMagicNumber rfl) <| .head (.seen rfl rfl) <| .head (.loadOwnTail rfl) <|
    .head (.pushLoadHead rfl 7 4) <| .head (.pushPass rfl room_for_one) <|
    .head (.storeItem rfl) <| .head (.storeTail rfl) <| .head (.storeQueueSize rfl) <|
    .head (.clearTail rfl) <| .single (.clearHead rfl), rfl, rfl, rfl⟩

end RazorCrypto.ShmQueue.Startup
