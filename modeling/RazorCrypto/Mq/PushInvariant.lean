import RazorCrypto.Mq.Push

/-!
# What the ring holds while producers push

With at most `n` pushes in flight on a ring of `n` slots, the sequence numbers that are
claimed and not yet published lie within one lap, so that a late copy of an old lap cannot
hit a newer message. `Content` is the invariant: the claims of a run are numbered in turn,
the copied words of each claim are in its slot, and the published messages of the last lap
are complete.
-/

universe u v w

namespace RazorCrypto.Mq

open K4RingBuffer SlotRing Transition

variable {ι : Type u} {β : Type v} {P : Type w}

/-- The claims of a run, in order: sequence numbers with their messages. -/
def claims (events : List (Event ι β P)) : List (Nat × (ι → β)) :=
  events.filterMap fun
    | .claim _ sequence data => some (sequence, data)
    | _ => none

/-- The sequence numbers of the completed pushes, in order. -/
def completions (events : List (Event ι β P)) : List Nat :=
  events.filterMap fun
    | .complete _ sequence => some sequence
    | _ => none

/-- The messages in their slots. -/
structure Content (n : Nat) (events : List (Event ι β P)) (s : State ι β P) : Prop where
  sized : Sized n s.ring
  numbers : (claims events).map Prod.fst = List.range' 1 s.ring.head
  listed : ∀ p c, (s.procs p).claimed = some c → (claims events)[c.1 - 1]? = some c
  slot : ∀ p data prodHead prodIndx stored,
    s.procs p = .copy data prodHead prodIndx stored → prodIndx = (prodHead + 1) % n
  words : ∀ p c, (s.procs p).claimed = some c → ∀ word ∈ (s.procs p).stored,
    s.ring.ring (c.1 % n) word = c.2 word
  kept : Holds n 1 s.ring.ring (((claims events).take s.ring.tail).map Prod.snd)
    (s.ring.head - n)
  completed : completions events = List.range' 1 s.ring.tail

/-- What it says about a producer at `pc`. -/
structure Owns (n : Nat) (events : List (Event ι β P)) (ring : K4RingBuffer (ι → β))
    (pc : Pc ι β) : Prop where
  listed : ∀ c, pc.claimed = some c → (claims events)[c.1 - 1]? = some c
  slot : ∀ data prodHead prodIndx stored, pc = .copy data prodHead prodIndx stored →
    prodIndx = (prodHead + 1) % n
  words : ∀ c, pc.claimed = some c → ∀ word ∈ pc.stored, ring.ring (c.1 % n) word = c.2 word

variable {s t : State ι β P} {n : Nat} {events : List (Event ι β P)} {e : Event ι β P} {p : P}

/-- The pushes in flight bound the unpublished claims. -/
theorem Order.sub_le (h : Order s) (bound : s.inFlight.encard ≤ n) :
    s.ring.head - s.ring.tail ≤ n := by
  let number : P → Nat := fun p => ((s.procs p).claimed.map Prod.fst).getD 0
  have covered : (Finset.Ioc s.ring.tail s.ring.head : Set Nat) ⊆ number '' s.inFlight := by
    intro sequence inside
    obtain ⟨above, below⟩ := Finset.mem_Ioc.mp (Finset.mem_coe.mp inside)
    obtain ⟨p, c, holds, same⟩ := h.onto sequence above below
    refine ⟨p, ?_, ?_⟩
    · intro idle
      rw [idle] at holds
      cases holds
    · change ((s.procs p).claimed.map Prod.fst).getD 0 = sequence
      rw [holds]
      exact same
  have count := (Set.encard_le_encard covered).trans ((Set.encard_image_le _ _).trans bound)
  rw [Set.encard_coe_eq_coe_finsetCard, Nat.card_Ioc] at count
  exact_mod_cast count

namespace Content

theorem owns (h : Content n events s) (p : P) : Owns n events s.ring (s.procs p) :=
  ⟨h.listed p, h.slot p, h.words p⟩

theorem length_claims (h : Content n events s) : (claims events).length = s.ring.head := by
  have len := congrArg List.length h.numbers
  simpa using len

theorem start {ring : K4RingBuffer (ι → β)} (sized : Sized n ring) (head : ring.head = 0)
    (tail : ring.tail = 0) : Content (P := P) n [] (State.start ring) := by
  refine ⟨sized, ?_, ?_, ?_, ?_, ?_, ?_⟩
  · change [] = List.range' 1 ring.head
    rw [head]
    rfl
  · intro p c none
    cases none
  · intro p data prodHead prodIndx stored none
    cases none
  · intro p c none
    cases none
  · have none : (((claims ([] : List (Event ι β P))).take ring.tail).map Prod.snd) = [] := by
      simp [claims]
    change Holds n 1 ring.ring (((claims []).take ring.tail).map Prod.snd) _
    rw [none]
    exact Holds.nil
  · change [] = List.range' 1 ring.tail
    rw [tail]
    rfl

theorem silent (h : Content n events s) : Content n (events ++ [.silent]) s := by
  have claims_eq : claims (events ++ [.silent]) = claims events := by simp [claims]
  have completions_eq : completions (events ++ [.silent]) = completions events := by
    simp [completions]
  exact ⟨h.sized, claims_eq ▸ h.numbers, claims_eq ▸ h.listed, h.slot, h.words,
    claims_eq ▸ h.kept, completions_eq ▸ h.completed⟩

variable [DecidableEq P]

/-- The content after one producer has moved, from what it says about each producer. -/
theorem of_goto {ring : K4RingBuffer (ι → β)} {pc : Pc ι β} (sized : Sized n ring)
    (numbers : (claims events).map Prod.fst = List.range' 1 ring.head)
    (self : Owns n events ring pc) (others : ∀ q, q ≠ p → Owns n events ring (s.procs q))
    (kept : Holds n 1 ring.ring (((claims events).take ring.tail).map Prod.snd) (ring.head - n))
    (completed : completions events = List.range' 1 ring.tail) :
    Content n events (({ s with ring := ring } : State ι β P).goto p pc) := by
  have all : ∀ q, Owns n events ring
      ((({ s with ring := ring } : State ι β P).goto p pc).procs q) :=
    State.goto_forall (motive := fun _ pc => Owns n events ring pc) self others
  exact ⟨sized, numbers, fun q => (all q).listed, fun q => (all q).slot, fun q => (all q).words,
    kept, completed⟩

/-- A producer that keeps its claim moves on, with no more words than are in its slot. -/
theorem goto (h : Content n events s) {pc : Pc ι β} (same : pc.claimed = (s.procs p).claimed)
    (slot : ∀ data prodHead prodIndx stored, pc = .copy data prodHead prodIndx stored →
      prodIndx = (prodHead + 1) % n)
    (words : ∀ c, pc.claimed = some c → ∀ word ∈ pc.stored,
      s.ring.ring (c.1 % n) word = c.2 word) : Content n events (s.goto p pc) := by
  refine of_goto h.sized h.numbers ⟨?_, slot, words⟩ (fun q _ => h.owns q) h.kept h.completed
  intro c holds
  exact h.listed p c (same ▸ holds)

/-- A producer without a claim moves on without one. -/
theorem goto_unclaimed (h : Content n events s) {pc : Pc ι β}
    (before : (s.procs p).claimed = none) (after : pc.claimed = none) :
    Content n events (s.goto p pc) := by
  refine h.goto (after.trans before.symm) ?_ ?_
  · rintro data prodHead prodIndx stored rfl
    cases after
  · intro c holds
    rw [after] at holds
    cases holds

/-- Copying a word hits neither the slot of another claim nor a message of the last lap. -/
theorem storeWord [DecidableEq ι] (h : Content n events s) (order : Order s)
    (bound : s.ring.head - s.ring.tail ≤ n) {data : ι → β} {prodHead prodIndx : Nat}
    {stored : Set ι} (here : s.procs p = .copy data prodHead prodIndx stored) (word : ι) :
    Content n events
      ({ s with ring := { s.ring with
        ring := SlotRing.storeWord s.ring.ring prodIndx word (data word) } }.goto p
        (.copy data prodHead prodIndx (insert word stored))) := by
  have own : (s.procs p).claimed = some (prodHead + 1, data) := by
    rw [here]
    rfl
  obtain ⟨above, below⟩ : s.ring.tail < prodHead + 1 ∧ prodHead + 1 ≤ s.ring.head :=
    order.held p _ own
  have slot := h.slot p _ _ _ _ here
  subst slot
  refine of_goto ⟨h.sized.two, h.sized.int, h.sized.ringSize, h.sized.indexMode⟩ h.numbers
    ⟨?_, ?_, ?_⟩ ?_ ?_ h.completed
  · intro c holds
    exact h.listed p c (own.trans holds)
  · rintro _ _ _ _ ⟨⟩
    rfl
  · rintro c ⟨⟩ word' inserted
    change SlotRing.storeWord s.ring.ring ((prodHead + 1) % n) word (data word)
      ((prodHead + 1) % n) word' = data word'
    rw [storeWord_self]
    by_cases same : word' = word
    · subst same
      exact Function.update_self ..
    · rw [Function.update_of_ne same]
      have before : word' ∈ (s.procs p).stored := by
        rw [here]
        exact inserted.resolve_left same
      exact h.words p _ own word' before
  · intro q other
    refine ⟨h.listed q, h.slot q, ?_⟩
    intro c holds word' inside
    obtain ⟨above', below'⟩ := order.held q c holds
    have ne : c.1 ≠ prodHead + 1 := fun number => other (order.unique q p _ _ holds own number)
    -- both claims lie in one lap
    have apart : c.1 % n ≠ (prodHead + 1) % n := by
      rcases Nat.lt_or_gt_of_ne ne with lt | gt
      · exact mod_ne lt (by omega)
      · exact (mod_ne gt (by omega)).symm
    change SlotRing.storeWord s.ring.ring ((prodHead + 1) % n) word (data word) (c.1 % n) word' = _
    rw [storeWord_of_ne apart]
    exact h.words q c holds word' inside
  · refine h.kept.storeWord ?_ ?_ word (data word)
    · rw [List.length_map, List.length_take]
      omega
    · omega

/-- A new claim takes the next place in the list of claims. -/
theorem claim (h : Content n events s) (order : Order s) (data : ι → β) :
    Content n (events ++ [.claim p (s.ring.head + 1) data])
      ({ s with ring := { s.ring with head := s.ring.head + 1 } }.goto p
        (.copy data s.ring.head (s.ring.sequenceIndex (s.ring.head + 1)) ∅)) := by
  have claims_eq : claims (events ++ [.claim p (s.ring.head + 1) data]) =
      claims events ++ [(s.ring.head + 1, data)] := by simp [claims]
  have completions_eq : completions (events ++ [.claim p (s.ring.head + 1) data]) =
      completions events := by simp [completions]
  have len := h.length_claims
  refine of_goto ⟨h.sized.two, h.sized.int, h.sized.ringSize, h.sized.indexMode⟩ ?_
    ⟨?_, ?_, ?_⟩ ?_ ?_ (completions_eq ▸ h.completed)
  · rw [claims_eq, List.map_append, h.numbers, List.map_singleton]
    change _ = List.range' 1 (s.ring.head + 1)
    rw [List.range'_1_concat, Nat.add_comm]
  · rintro c ⟨⟩
    rw [claims_eq, Nat.add_sub_cancel, ← len, List.getElem?_concat_length]
  · rintro _ _ _ _ ⟨⟩
    exact h.sized.sequenceIndex _
  · rintro c - word ⟨⟩
  · intro q _
    refine ⟨?_, h.slot q, h.words q⟩
    intro c holds
    have old := h.listed q c holds
    obtain ⟨inside, -⟩ := List.getElem?_eq_some_iff.mp old
    rw [claims_eq, List.getElem?_append_left inside, old]
  · have taken : (claims events ++ [(s.ring.head + 1, data)]).take s.ring.tail =
        (claims events).take s.ring.tail :=
      List.take_append_of_le_length (len ▸ order.tail_le)
    change Holds n 1 s.ring.ring (((claims _).take s.ring.tail).map Prod.snd)
      (s.ring.head + 1 - n)
    rw [claims_eq, taken]
    exact h.kept.mono (by omega)

/-- Publishing completes the message after the last published one. -/
theorem publish (h : Content n events s) {data : ι → β}
    (here : s.procs p = .publish data s.ring.tail) :
    Content n (events ++ [.complete p (s.ring.tail + 1)])
      ({ s with ring := { s.ring with tail := s.ring.tail + 1 } }.goto p .idle) := by
  have own : (s.procs p).claimed = some (s.ring.tail + 1, data) := by
    rw [here]
    rfl
  have claims_eq : claims (events ++ [.complete p (s.ring.tail + 1)]) = claims events := by
    simp [claims]
  have completions_eq : completions (events ++ [.complete p (s.ring.tail + 1)]) =
      completions events ++ [s.ring.tail + 1] := by simp [completions]
  refine of_goto ⟨h.sized.two, h.sized.int, h.sized.ringSize, h.sized.indexMode⟩
    (claims_eq ▸ h.numbers) ⟨?_, ?_, ?_⟩ ?_ ?_ ?_
  · rintro c ⟨⟩
  · rintro _ _ _ _ ⟨⟩
  · rintro c ⟨⟩
  · intro q _
    exact ⟨claims_eq ▸ h.listed q, h.slot q, h.words q⟩
  · have published : (claims events)[s.ring.tail]? = some (s.ring.tail + 1, data) :=
      h.listed p _ own
    obtain ⟨inside, -⟩ := List.getElem?_eq_some_iff.mp published
    have full : s.ring.ring ((s.ring.tail + 1) % n) = data := by
      funext word
      refine h.words p _ own word ?_
      rw [here]
      trivial
    rw [claims_eq]
    change Holds n 1 s.ring.ring (((claims events).take (s.ring.tail + 1)).map Prod.snd) _
    rw [List.take_add_one, published, Option.toList_some, List.map_append, List.map_singleton]
    refine h.kept.extend ?_
    rw [List.length_map, List.length_take, Nat.min_eq_left inside.le]
    exact full
  · rw [completions_eq, h.completed]
    change _ = List.range' 1 (s.ring.tail + 1)
    rw [List.range'_1_concat, Nat.add_comm]

/-- Each step keeps the content. -/
theorem step [DecidableEq ι] (h : Content n events s) (order : Order s)
    (bound : s.ring.head - s.ring.tail ≤ n) (taken : Step s e t) :
    Content n (events ++ [e]) t := by
  cases taken with
  | call here data => exact (h.goto_unclaimed (by rw [here]; rfl) rfl).silent
  | readHead here => exact (h.goto_unclaimed (by rw [here]; rfl) rfl).silent
  | full here full => exact (h.goto_unclaimed (by rw [here]; rfl) rfl).silent
  | room here room => exact (h.goto_unclaimed (by rw [here]; rfl) rfl).silent
  | lost here changed => exact (h.goto_unclaimed (by rw [here]; rfl) rfl).silent
  | won here unchanged =>
      subst unchanged
      exact h.claim order _
  | storeWord here word => exact (h.storeWord order bound here word).silent
  | @copied p data prodHead prodIndx stored here complete =>
      refine (h.goto (by rw [here]; rfl) (by rintro _ _ _ _ ⟨⟩) ?_).silent
      rintro c ⟨⟩ word -
      exact h.words p _ (by rw [here]; rfl) word (by rw [here]; exact complete word)
  | wait here other => exact h.silent
  | @turn p data prodHead here own =>
      refine (h.goto (by rw [here]; rfl) (by rintro _ _ _ _ ⟨⟩) ?_).silent
      rintro c ⟨⟩ word -
      exact h.words p _ (by rw [here]; rfl) word (by rw [here]; trivial)
  | @publish p data prodHead here =>
      have turn := order.turn p _ _ here
      subst turn
      exact h.publish here

end Content

/-! ## Runs -/

/-- What every run promises: the claims are numbered from 1 on without gaps, `tail` counts
the completed pushes, which happen in the order of the claims, and the published messages of
the last lap are in their slots. -/
structure Delivered (n : Nat) (events : List (Event ι β P)) (ring : K4RingBuffer (ι → β)) :
    Prop where
  claimed : (claims events).map Prod.fst = List.range' 1 ring.head
  tail_le : ring.tail ≤ ring.head
  completed : completions events = List.range' 1 ring.tail
  message : ∀ sequence, 1 ≤ sequence → sequence ≤ ring.tail → ring.head < sequence + n →
    ∃ data, (claims events)[sequence - 1]? = some (sequence, data) ∧
      ring.ring (sequence % n) = data ∧ ring.getBySequence sequence = data

theorem Content.delivered (h : Content n events s) (order : Order s) :
    Delivered n events s.ring := by
  refine ⟨h.numbers, order.tail_le, h.completed, ?_⟩
  intro sequence first published recent
  have len := h.length_claims
  have tail_le := order.tail_le
  have inside : sequence - 1 < (claims events).length := by omega
  have number : ((claims events)[sequence - 1]).1 = sequence := by
    have place := congrArg (·[sequence - 1]?) h.numbers
    rw [List.getElem?_map, List.getElem?_eq_getElem inside,
      List.getElem?_range' (by omega)] at place
    have value := Option.some.inj place
    omega
  have stored : s.ring.ring (sequence % n) = ((claims events)[sequence - 1]).2 := by
    have kept := h.kept (sequence - 1) (by rw [List.length_map, List.length_take]; omega)
      (by omega)
    rw [Nat.sub_add_cancel first] at kept
    simpa using kept
  refine ⟨((claims events)[sequence - 1]).2, ?_, stored, ?_⟩
  · rw [List.getElem?_eq_getElem inside, Option.some.injEq]
    exact Prod.ext number rfl
  · rw [getBySequence, h.sized.sequenceIndex]
    exact stored

/-- Any number of producers, with at most `n` pushes in flight, on a ring of `n` slots. -/
theorem push_delivered [DecidableEq ι] [DecidableEq P] (memory : K4RingBuffer (ι → β)) {n : Nat}
    (two : 2 ≤ n) (int : n < 2147483648)
    (run : Run (Bounded Step fun s : State ι β P => s.inFlight.encard ≤ n)
      (State.start (memory.init n).1) events s) : Delivered n events s.ring := by
  obtain ⟨head, tail⟩ := init_counters memory (show 1 < (n : Int) by omega)
  have invariant : Order s ∧ s.ring.head - s.ring.tail ≤ n ∧ Content n events s := by
    refine run.invariant (I := fun events s => Order s ∧ s.ring.head - s.ring.tail ≤ n ∧
      Content n events s) ?_ ?_
    · refine ⟨Order.start (head.trans tail.symm), ?_, Content.start (init_sized two int) head tail⟩
      change (memory.init n).1.head - _ ≤ n
      rw [head]
      omega
    · rintro events s e t ⟨order, bound, content⟩ ⟨taken, inFlight⟩
      have order' := order.step taken
      exact ⟨order', order'.sub_le inFlight, content.step order bound taken⟩
  exact invariant.2.2.delivered invariant.1

/-- Two pushes of one word: both producers read `prod.head` before either claims, and the one that
loses its compare-and-swap claims next, copies first and waits to publish. -/
def overlapping : List (Event Unit Nat Bool) :=
  [.silent, .silent, .silent, .silent, .silent, .silent, .claim true 1 fun _ => 7, .silent, .silent,
    .silent, .claim false 2 fun _ => 9, .silent, .silent, .silent, .silent, .silent, .silent,
    .complete true 1, .silent, .complete false 2]

theorem push_delivered_two : ∃ ring : K4RingBuffer (Unit → Nat), ring.tail = 2 ∧
    Delivered 2 overlapping ring := by
  have atMostTwo : ∀ producers : Set Bool, producers.encard ≤ (2 : Nat) := by
    intro producers
    refine (Set.encard_le_encard (Set.subset_univ producers)).trans ?_
    rw [Set.encard_univ, ENat.card_eq_coe_fintype_card, Fintype.card_bool]
  let memory : K4RingBuffer (Unit → Nat) := ⟨0, 0, 0, 0, fun _ _ => 0⟩
  have idle : Run (Bounded Step fun s : State Unit Nat Bool => s.inFlight.encard ≤ (2 : Nat))
      (State.start (memory.init 2).1) [] (State.start (memory.init 2).1) := .refl
  have started := (((((idle.snoc ⟨.call (p := true) rfl fun _ => 7, atMostTwo _⟩).snoc
    ⟨.call (p := false) rfl fun _ => 9, atMostTwo _⟩).snoc
    ⟨.readHead (p := true) rfl, atMostTwo _⟩).snoc
    ⟨.readHead (p := false) rfl, atMostTwo _⟩).snoc
    ⟨.room (p := true) rfl (by decide), atMostTwo _⟩).snoc
    ⟨.room (p := false) rfl (by decide), atMostTwo _⟩
  have claimed := ((((started.snoc ⟨.won (p := true) rfl rfl, atMostTwo _⟩).snoc
    ⟨.lost (p := false) rfl (by decide), atMostTwo _⟩).snoc
    ⟨.readHead (p := false) rfl, atMostTwo _⟩).snoc
    ⟨.room (p := false) rfl (by decide), atMostTwo _⟩).snoc ⟨.won (p := false) rfl rfl, atMostTwo _⟩
  have copied := ((((claimed.snoc ⟨.storeWord (p := false) rfl (), atMostTwo _⟩).snoc
    ⟨.storeWord (p := true) rfl (), atMostTwo _⟩).snoc
    ⟨.copied (p := false) rfl fun _ => Or.inl rfl, atMostTwo _⟩).snoc
    ⟨.wait (p := false) rfl (by decide), atMostTwo _⟩).snoc
    ⟨.copied (p := true) rfl fun _ => Or.inl rfl, atMostTwo _⟩
  have published := (((copied.snoc ⟨.turn (p := true) rfl rfl, atMostTwo _⟩).snoc
    ⟨.publish (p := true) rfl, atMostTwo _⟩).snoc
    ⟨.turn (p := false) rfl rfl, atMostTwo _⟩).snoc ⟨.publish (p := false) rfl, atMostTwo _⟩
  exact ⟨_, rfl, push_delivered memory (Nat.le_refl 2) (by decide) published⟩

end RazorCrypto.Mq
