import Mathlib.Data.Set.Card
import Mathlib.Order.Interval.Finset.Nat
import RazorCrypto.Foundation.SlotRing
import RazorCrypto.Foundation.Transition
import RazorCrypto.Mq.RingBuffer

/-!
# Many producers pushing at once

Each producer runs `push` in multi-process mode, one atomic step at a time: it reads
`prod.head`, tests it against `prod.tail`, claims the next sequence number by
compare-and-swap, copies its message word by word into the slot, waits until `prod.tail`
reaches its claim and then moves it. Memory is sequentially consistent. Any number of
producers may push, and each may push again.

`Order` says how the claims relate to the two counters. It holds without any bound on the
number of producers. With at most `n` pushes in flight no two claims share a slot, and
`Content` says what the slots hold.
-/

universe u v w

namespace RazorCrypto.Mq

open SlotRing Transition

/-- Where a producer is in `push`. -/
inductive Pc (ι : Type u) (β : Type v)
  | idle
  | readHead (data : ι → β)
  | testTail (data : ι → β) (prodHead : Nat)
  | compareAndSwap (data : ι → β) (prodHead : Nat)
  | copy (data : ι → β) (prodHead prodIndx : Nat) (stored : Set ι)
  | spin (data : ι → β) (prodHead : Nat)
  | publish (data : ι → β) (prodHead : Nat)

/-- What a run shows: the claims and the completed pushes, with their sequence numbers. -/
inductive Event (ι : Type u) (β : Type v) (P : Type w)
  | silent
  | claim (p : P) (sequence : Nat) (data : ι → β)
  | complete (p : P) (sequence : Nat)

/-- The ring in shared memory and the producers. -/
structure State (ι : Type u) (β : Type v) (P : Type w) where
  ring : K4RingBuffer (ι → β)
  procs : P → Pc ι β

variable {ι : Type u} {β : Type v} {P : Type w}

namespace Pc

/-- The sequence number and the message of a claim that is not yet published. -/
def claimed : Pc ι β → Option (Nat × (ι → β))
  | copy data prodHead _ _ | spin data prodHead | publish data prodHead =>
      some (prodHead + 1, data)
  | _ => none

/-- The words of the claimed message that are in its slot. -/
def stored : Pc ι β → Set ι
  | copy _ _ _ stored => stored
  | spin _ _ | publish _ _ => Set.univ
  | _ => ∅

/-- The value of `prod.head` that was read and not yet used. -/
def read : Pc ι β → Option Nat
  | testTail _ prodHead | compareAndSwap _ prodHead => some prodHead
  | _ => none

end Pc

namespace State

variable [DecidableEq P]

/-- Producer `p` continues at `pc`. -/
def goto (s : State ι β P) (p : P) (pc : Pc ι β) : State ι β P :=
  { s with procs := Function.update s.procs p pc }

/-- An initialised ring with idle producers. -/
def start (ring : K4RingBuffer (ι → β)) : State ι β P := ⟨ring, fun _ => .idle⟩

/-- The producers that are in a call of `push`. -/
def inFlight (s : State ι β P) : Set P := { p | s.procs p ≠ .idle }

end State

/-- One atomic step of a producer. -/
inductive Step [DecidableEq ι] [DecidableEq P] :
    State ι β P → Event ι β P → State ι β P → Prop
  | call {s p} (here : s.procs p = .idle) (data : ι → β) :
      Step s .silent (s.goto p (.readHead data))
  | readHead {s p data} (here : s.procs p = .readHead data) :
      Step s .silent (s.goto p (.testTail data s.ring.head))
  | full {s p data prodHead} (here : s.procs p = .testTail data prodHead)
      (full : prodHead + 1 = s.ring.tail) : Step s .silent (s.goto p (.readHead data))
  | room {s p data prodHead} (here : s.procs p = .testTail data prodHead)
      (room : prodHead + 1 ≠ s.ring.tail) :
      Step s .silent (s.goto p (.compareAndSwap data prodHead))
  | lost {s p data prodHead} (here : s.procs p = .compareAndSwap data prodHead)
      (changed : s.ring.head ≠ prodHead) : Step s .silent (s.goto p (.readHead data))
  | won {s p data prodHead} (here : s.procs p = .compareAndSwap data prodHead)
      (unchanged : s.ring.head = prodHead) :
      Step s (.claim p (prodHead + 1) data)
        ({ s with ring := { s.ring with head := prodHead + 1 } }.goto p
          (.copy data prodHead (s.ring.sequenceIndex (prodHead + 1)) ∅))
  | storeWord {s p data prodHead prodIndx stored}
      (here : s.procs p = .copy data prodHead prodIndx stored) (word : ι) :
      Step s .silent
        ({ s with ring := { s.ring with
          ring := storeWord s.ring.ring prodIndx word (data word) } }.goto p
          (.copy data prodHead prodIndx (insert word stored)))
  | copied {s p data prodHead prodIndx stored}
      (here : s.procs p = .copy data prodHead prodIndx stored)
      (complete : ∀ word, word ∈ stored) : Step s .silent (s.goto p (.spin data prodHead))
  | wait {s p data prodHead} (here : s.procs p = .spin data prodHead)
      (other : s.ring.tail ≠ prodHead) : Step s .silent s
  | turn {s p data prodHead} (here : s.procs p = .spin data prodHead)
      (own : s.ring.tail = prodHead) : Step s .silent (s.goto p (.publish data prodHead))
  | publish {s p data prodHead} (here : s.procs p = .publish data prodHead) :
      Step s (.complete p (prodHead + 1))
        ({ s with ring := { s.ring with tail := prodHead + 1 } }.goto p .idle)

/-! ## Claims and counters -/

/-- Claims are for the numbers after `tail` up to `head`, one producer for each. -/
structure Order (s : State ι β P) : Prop where
  tail_le : s.ring.tail ≤ s.ring.head
  held : ∀ p c, (s.procs p).claimed = some c → s.ring.tail < c.1 ∧ c.1 ≤ s.ring.head
  unique : ∀ p q c c', (s.procs p).claimed = some c → (s.procs q).claimed = some c' →
    c.1 = c'.1 → p = q
  onto : ∀ sequence, s.ring.tail < sequence → sequence ≤ s.ring.head →
    ∃ p c, (s.procs p).claimed = some c ∧ c.1 = sequence
  turn : ∀ p data prodHead, s.procs p = .publish data prodHead → prodHead = s.ring.tail
  stale : ∀ p prodHead, (s.procs p).read = some prodHead → prodHead ≤ s.ring.head

namespace State

variable [DecidableEq P] {s : State ι β P} {p q : P} {pc : Pc ι β}

theorem goto_self : (s.goto p pc).procs p = pc := Function.update_self ..

theorem goto_of_ne (ne : q ≠ p) : (s.goto p pc).procs q = s.procs q := Function.update_of_ne ne ..

/-- What holds of `p` at `pc` and of the others where they were holds of all. -/
theorem goto_forall {motive : P → Pc ι β → Prop} (self : motive p pc)
    (others : ∀ q, q ≠ p → motive q (s.procs q)) (q : P) : motive q ((s.goto p pc).procs q) := by
  by_cases same : q = p
  · subst same
    rwa [goto_self]
  · rw [goto_of_ne same]
    exact others q same

end State

namespace Order

variable {s : State ι β P} {p : P} {pc : Pc ι β}

theorem start {ring : K4RingBuffer (ι → β)} (quiet : ring.head = ring.tail) :
    Order (P := P) (State.start ring) := by
  refine ⟨quiet.ge, ?_, ?_, ?_, ?_, ?_⟩
  · intro p c none
    cases none
  · intro p q c c' none
    cases none
  · intro sequence above below
    exact absurd (Nat.lt_of_lt_of_le above below) (quiet ▸ Nat.lt_irrefl _)
  · intro p data prodHead none
    cases none
  · intro p prodHead none
    cases none

variable [DecidableEq P]

/-- A producer that keeps its claim, or its lack of one, moves on. -/
theorem goto (h : Order s) (same : pc.claimed = (s.procs p).claimed)
    (turn : ∀ data prodHead, pc = .publish data prodHead → prodHead = s.ring.tail)
    (stale : ∀ prodHead, pc.read = some prodHead → prodHead ≤ s.ring.head) :
    Order (s.goto p pc) := by
  have claimed : ∀ q, ((s.goto p pc).procs q).claimed = (s.procs q).claimed :=
    State.goto_forall (motive := fun q pc => pc.claimed = (s.procs q).claimed) same
      fun q _ => rfl
  refine ⟨h.tail_le, ?_, ?_, ?_, ?_, ?_⟩
  · intro q c holds
    exact h.held q c (claimed q ▸ holds)
  · intro q q' c c' holds holds'
    exact h.unique q q' c c' (claimed q ▸ holds) (claimed q' ▸ holds')
  · intro sequence above below
    obtain ⟨q, c, holds, number⟩ := h.onto sequence above below
    exact ⟨q, c, (claimed q).trans holds, number⟩
  · exact State.goto_forall
      (motive := fun _ pc => ∀ data prodHead, pc = .publish data prodHead →
        prodHead = s.ring.tail) turn fun q _ => h.turn q
  · exact State.goto_forall
      (motive := fun _ pc => ∀ prodHead, pc.read = some prodHead → prodHead ≤ s.ring.head)
      stale fun q _ => h.stale q

omit [DecidableEq P] in
/-- The order does not depend on the slots. -/
theorem of_counters (h : Order s) (ring : K4RingBuffer (ι → β))
    (head : ring.head = s.ring.head) (tail : ring.tail = s.ring.tail) :
    Order { s with ring := ring } := by
  obtain ⟨tail_le, held, unique, onto, turn, stale⟩ := h
  rw [← head, ← tail] at tail_le held onto
  rw [← tail] at turn
  rw [← head] at stale
  exact ⟨tail_le, held, unique, onto, turn, stale⟩

/-- A won compare-and-swap claims the number after `head`. -/
theorem claim (h : Order s) (idle : (s.procs p).claimed = none) (data : ι → β)
    (prodIndx : Nat) :
    Order ({ s with ring := { s.ring with head := s.ring.head + 1 } }.goto p
      (.copy data s.ring.head prodIndx ∅)) := by
  have tail_le := h.tail_le
  refine ⟨Nat.le_succ_of_le tail_le, ?_, ?_, ?_, ?_, ?_⟩
  · refine State.goto_forall (motive := fun _ pc => ∀ c, pc.claimed = some c →
      s.ring.tail < c.1 ∧ c.1 ≤ s.ring.head + 1) ?_ ?_
    · rintro c ⟨⟩
      exact ⟨by dsimp only; omega, Nat.le_refl _⟩
    · intro q _ c holds
      obtain ⟨above, below⟩ := h.held q c holds
      exact ⟨above, Nat.le_succ_of_le below⟩
  · intro q q' c c' holds holds' number
    by_cases own : q = p <;> by_cases own' : q' = p
    · exact own.trans own'.symm
    · -- a number up to `head` is not the new one
      rw [own, State.goto_self] at holds
      rw [State.goto_of_ne own'] at holds'
      cases holds
      have below := (h.held q' c' holds').2
      dsimp only at number
      omega
    · rw [State.goto_of_ne own] at holds
      rw [own', State.goto_self] at holds'
      cases holds'
      have below := (h.held q c holds).2
      dsimp only at number
      omega
    · rw [State.goto_of_ne own] at holds
      rw [State.goto_of_ne own'] at holds'
      exact h.unique q q' c c' holds holds' number
  · intro sequence above below
    by_cases new : sequence = s.ring.head + 1
    · exact ⟨p, (s.ring.head + 1, data), congrArg Pc.claimed State.goto_self, new.symm⟩
    · have old : sequence ≤ s.ring.head := Nat.le_of_lt_succ (Nat.lt_of_le_of_ne below new)
      obtain ⟨q, c, holds, number⟩ := h.onto sequence above old
      have other : q ≠ p := by
        rintro rfl
        rw [idle] at holds
        cases holds
      exact ⟨q, c, (congrArg Pc.claimed (State.goto_of_ne other)).trans holds, number⟩
  · refine State.goto_forall (motive := fun _ pc => ∀ data prodHead,
      pc = .publish data prodHead → prodHead = s.ring.tail) ?_ fun q _ => h.turn q
    rintro data prodHead ⟨⟩
  · refine State.goto_forall (motive := fun _ pc => ∀ prodHead, pc.read = some prodHead →
      prodHead ≤ s.ring.head + 1) ?_ ?_
    · rintro prodHead ⟨⟩
    · intro q _ prodHead reads
      exact Nat.le_succ_of_le (h.stale q prodHead reads)

/-- Publishing gives up the claim of the number after `tail`. -/
theorem publish (h : Order s) {data : ι → β}
    (here : s.procs p = .publish data s.ring.tail) :
    Order ({ s with ring := { s.ring with tail := s.ring.tail + 1 } }.goto p .idle) := by
  have own : (s.procs p).claimed = some (s.ring.tail + 1, data) := by
    rw [here]
    rfl
  refine ⟨(h.held p _ own).2, ?_, ?_, ?_, ?_, ?_⟩
  · refine State.goto_forall (motive := fun _ pc => ∀ c, pc.claimed = some c →
      s.ring.tail + 1 < c.1 ∧ c.1 ≤ s.ring.head) ?_ ?_
    · rintro c ⟨⟩
    · intro q other c holds
      obtain ⟨above, below⟩ := h.held q c holds
      have ne : c.1 ≠ s.ring.tail + 1 := fun number => other (h.unique q p _ _ holds own number)
      omega
  · intro q q' c c' holds holds'
    have other : ∀ {q c}, (({ s with ring := { s.ring with tail := s.ring.tail + 1 } }.goto p
        Pc.idle).procs q).claimed = some c → (s.procs q).claimed = some c := by
      intro q c
      exact State.goto_forall (motive := fun q pc => pc.claimed = some c →
        (s.procs q).claimed = some c) (by rintro ⟨⟩) (fun _ _ => id) q
    exact h.unique q q' c c' (other holds) (other holds')
  · intro sequence (above : s.ring.tail + 1 < sequence) below
    obtain ⟨q, c, holds, number⟩ := h.onto sequence (Nat.lt_of_succ_lt above) below
    have other : q ≠ p := by
      rintro rfl
      rw [own] at holds
      cases holds
      exact absurd number above.ne
    exact ⟨q, c, (congrArg Pc.claimed (State.goto_of_ne other)).trans holds, number⟩
  · refine State.goto_forall (motive := fun _ pc => ∀ data prodHead,
      pc = .publish data prodHead → prodHead = s.ring.tail + 1) ?_ ?_
    · rintro data prodHead ⟨⟩
    · intro q other data' prodHead publishing
      have turn := h.turn q data' prodHead publishing
      have holds : (s.procs q).claimed = some (s.ring.tail + 1, data') := by
        rw [publishing, turn]
        rfl
      exact absurd (h.unique q p _ _ holds own rfl) other
  · refine State.goto_forall (motive := fun _ pc => ∀ prodHead, pc.read = some prodHead →
      prodHead ≤ s.ring.head) ?_ fun q _ => h.stale q
    rintro prodHead ⟨⟩

variable [DecidableEq ι] {e : Event ι β P} {t : State ι β P}

/-- Each step keeps the order. -/
theorem step (h : Order s) (taken : Step s e t) : Order t := by
  cases taken with
  | call here data => exact h.goto (by rw [here]; rfl) (by rintro _ _ ⟨⟩) (by rintro _ ⟨⟩)
  | readHead here =>
      refine h.goto (by rw [here]; rfl) (by rintro _ _ ⟨⟩) ?_
      rintro _ ⟨⟩
      exact Nat.le_refl _
  | full here full => exact h.goto (by rw [here]; rfl) (by rintro _ _ ⟨⟩) (by rintro _ ⟨⟩)
  | @room p _ _ here room =>
      refine h.goto (by rw [here]; rfl) (by rintro _ _ ⟨⟩) ?_
      rintro _ ⟨⟩
      exact h.stale p _ (by rw [here]; rfl)
  | lost here changed => exact h.goto (by rw [here]; rfl) (by rintro _ _ ⟨⟩) (by rintro _ ⟨⟩)
  | won here unchanged =>
      subst unchanged
      exact h.claim (by rw [here]; rfl) ..
  | @storeWord p data _ prodIndx _ here word =>
      have stored := h.of_counters { s.ring with
        ring := storeWord s.ring.ring prodIndx word (data word) } rfl rfl
      exact stored.goto (by rw [here]; rfl) (by rintro _ _ ⟨⟩) (by rintro _ ⟨⟩)
  | copied here complete =>
      exact h.goto (by rw [here]; rfl) (by rintro _ _ ⟨⟩) (by rintro _ ⟨⟩)
  | wait here other => exact h
  | turn here own =>
      refine h.goto (by rw [here]; rfl) ?_ (by rintro _ ⟨⟩)
      rintro _ _ ⟨⟩
      exact own.symm
  | @publish p _ _ here =>
      have turn := h.turn p _ _ here
      subst turn
      exact h.publish here

omit [DecidableEq ι] [DecidableEq P] in
/-- The ring only looks full to a value of `prod.head` that is out of date. -/
theorem lt_of_full (h : Order s) {prodHead : Nat} (full : prodHead + 1 = s.ring.tail) :
    prodHead < s.ring.head := by
  have tail_le := h.tail_le
  omega

end Order

end RazorCrypto.Mq
