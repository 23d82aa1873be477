import RazorCrypto.Mq.Push

/-!
# A push that nothing interrupts

`K4RingBuffer.push` in multi-process mode is one of the runs of the atomic steps: the
producer reads `prod.head`, wins the compare-and-swap, copies the words of its message and
publishes without waiting. What is proved about all interleavings therefore holds of
it too.
-/

universe u v w

namespace RazorCrypto.Mq

open SlotRing Transition

variable {ι : Type u} {β : Type v} {P : Type w} [DecidableEq P]
variable {ring : K4RingBuffer (ι → β)} {procs : P → Pc ι β} {p : P} {data : ι → β}

namespace State

theorem goto_eq_self {pc : Pc ι β} (here : procs p = pc) :
    (State.mk ring procs).goto p pc = ⟨ring, procs⟩ := by
  subst here
  exact congrArg (State.mk ring) (Function.update_eq_self p procs)

/-- Only the last of several moves of one producer shows. -/
theorem goto_goto (ring' : K4RingBuffer (ι → β)) (pc pc' : Pc ι β) :
    (State.mk ring' ((State.mk ring procs).goto p pc).procs).goto p pc' =
      (State.mk ring' procs).goto p pc' :=
  congrArg (State.mk ring') (Function.update_idem ..)

end State

variable [DecidableEq ι]

/-- A step of a producer that has moved before is written as one move. -/
theorem Step.of_goto {pc pc' : Pc ι β} {ring' : K4RingBuffer (ι → β)} {e : Event ι β P}
    (taken : Step ((State.mk ring procs).goto p pc) e
      ((State.mk ring' ((State.mk ring procs).goto p pc).procs).goto p pc')) :
    Step ((State.mk ring procs).goto p pc) e ((State.mk ring' procs).goto p pc') := by
  rwa [State.goto_goto] at taken

/-- At the head of its loop, with room in the ring, a producer claims in three steps. -/
theorem run_claim (ring : K4RingBuffer (ι → β)) (procs : P → Pc ι β) (p : P) (data : ι → β)
    (room : ring.head + 1 ≠ ring.tail) :
    Run Step ((State.mk ring procs).goto p (.readHead data))
      [.silent, .silent, .claim p (ring.head + 1) data]
      ((State.mk { ring with head := ring.head + 1 } procs).goto p
        (.copy data ring.head (ring.sequenceIndex (ring.head + 1)) ∅)) := by
  have read : Step ((State.mk ring procs).goto p (.readHead data)) .silent
      ((State.mk ring procs).goto p (.testTail data ring.head)) :=
    .of_goto (.readHead State.goto_self)
  have test : Step ((State.mk ring procs).goto p (.testTail data ring.head)) .silent
      ((State.mk ring procs).goto p (.compareAndSwap data ring.head)) :=
    .of_goto (.room State.goto_self room)
  exact ((Run.single read).snoc test).snoc (.of_goto (.won State.goto_self rfl))

/-- A producer copies some words, in the order of a list. -/
theorem run_copy (ring : K4RingBuffer (ι → β)) (procs : P → Pc ι β) (p : P) (data : ι → β)
    (prodHead prodIndx : Nat) (stored : Set ι) (words : List ι) :
    ∃ events, Run Step ((State.mk ring procs).goto p (.copy data prodHead prodIndx stored)) events
      ((State.mk { ring with ring := storeWords ring.ring prodIndx data words } procs).goto p
        (.copy data prodHead prodIndx (stored ∪ { word | word ∈ words }))) := by
  induction words generalizing ring stored with
  | nil =>
      have none : stored ∪ { word | word ∈ [] } = stored := by simp
      rw [none]
      exact ⟨[], .refl⟩
  | cons word words ih =>
      obtain ⟨events, rest⟩ := ih { ring with
        ring := storeWord ring.ring prodIndx word (data word) } (insert word stored)
      have inserted : insert word stored ∪ { other | other ∈ words } =
          stored ∪ { other | other ∈ word :: words } := by
        ext other
        simp only [Set.mem_union, Set.mem_insert_iff, Set.mem_ofPred_eq, List.mem_cons]
        tauto
      rw [inserted] at rest
      exact ⟨_, rest.head (.of_goto (.storeWord State.goto_self word))⟩

/-- A producer whose message is in its slot publishes when it is its turn. -/
theorem run_publish (ring : K4RingBuffer (ι → β)) (procs : P → Pc ι β) (p : P) (data : ι → β)
    {prodHead : Nat} (prodIndx : Nat) (stored : Set ι) (complete : ∀ word, word ∈ stored)
    (own : ring.tail = prodHead) :
    Run Step ((State.mk ring procs).goto p (.copy data prodHead prodIndx stored))
      [.silent, .silent, .complete p (prodHead + 1)]
      ((State.mk { ring with tail := prodHead + 1 } procs).goto p .idle) := by
  have copied : Step ((State.mk ring procs).goto p (.copy data prodHead prodIndx stored)) .silent
      ((State.mk ring procs).goto p (.spin data prodHead)) :=
    .of_goto (.copied State.goto_self complete)
  have turn : Step ((State.mk ring procs).goto p (.spin data prodHead)) .silent
      ((State.mk ring procs).goto p (.publish data prodHead)) :=
    .of_goto (.turn State.goto_self own)
  exact ((Run.single copied).snoc turn).snoc (.of_goto (.publish State.goto_self))

/-- From its claim on, a producer whose turn it is finishes without waiting. -/
theorem run_finish (ring : K4RingBuffer (ι → β)) (procs : P → Pc ι β) (p : P) (data : ι → β)
    {prodHead : Nat} (prodIndx : Nat) (idle : procs p = .idle) {words : List ι}
    (all : ∀ word, word ∈ words) (own : ring.tail = prodHead) :
    ∃ events, Run Step ((State.mk ring procs).goto p (.copy data prodHead prodIndx ∅)) events
      ⟨{ ring with
        tail := prodHead + 1
        ring := Function.update ring.ring prodIndx data }, procs⟩ := by
  obtain ⟨copying, copy⟩ := run_copy ring procs p data prodHead prodIndx ∅ words
  have publish := run_publish { ring with ring := storeWords ring.ring prodIndx data words }
    procs p data prodIndx (∅ ∪ { word | word ∈ words }) (fun word => Or.inr (all word)) own
  rw [storeWords_of_forall all] at publish copy
  rw [State.goto_eq_self idle] at publish
  exact ⟨_, copy.trans publish⟩

/-- Each call of `push` that returns on its own is a run of its producer. -/
theorem run_push (idle : procs p = .idle) {words : List ι} (all : ∀ word, word ∈ words)
    {pushed : K4RingBuffer (ι → β)} {slot : Nat}
    (returned : ring.push data false = some (pushed, slot)) :
    ∃ events, Run Step (State.mk ring procs) events ⟨pushed, procs⟩ := by
  have quiet := K4RingBuffer.quiet_of_push returned
  rw [K4RingBuffer.push_of_quiet quiet, ← quiet] at returned
  cases returned
  have call : Step (State.mk ring procs) .silent ((State.mk ring procs).goto p (.readHead data)) :=
    .call idle data
  have claim := run_claim ring procs p data (by omega)
  obtain ⟨finishing, finish⟩ := run_finish { ring with head := ring.head + 1 } procs p data
    (ring.sequenceIndex (ring.head + 1)) idle all quiet.symm
  exact ⟨_, (claim.head call).trans finish⟩

end RazorCrypto.Mq
