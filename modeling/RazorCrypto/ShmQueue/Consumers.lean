import Mathlib.Data.List.Nodup
import Mathlib.Data.Set.Insert
import RazorCrypto.Foundation.SlotRing
import RazorCrypto.Foundation.Transition

/-!
# `shared_memory_queue` with many consumers

One producer calls `push` and any number of consumers call `wait_and_pop`. Each load of a
counter, the exchange of `head` and the copy of each word of a message are steps of their
own. A consumer moves `head` before it copies the slot, and from then on the producer counts
the slot as free. So a message is delivered intact as long as the producer stores no word
over one that a consumer has claimed and not copied yet.

With fewer than `2 ^ 31` messages the counters do not wrap and are natural numbers here. The
member `len` of an item is left out: `wait_and_pop` does not read it.
-/

universe u v w

namespace RazorCrypto.ShmQueue.Consumers

open SlotRing Transition

variable {κ : Type w} {ι : Type u} {β : Type v}

/-- The producer outside `push`, after its load of `head`, and after its test, with the words
it has stored. -/
inductive Producer (ι : Type u) (β : Type v)
  | idle
  | loadedHead (data : ι → β) (curHead : Nat)
  | storing (data : ι → β) (curTail : Nat) (stored : Set ι)

/-- A consumer before its load of `head`, after it, after its test `cur_head < cur_tail`, and
after it moved `head` from `k`, with the words it has copied. -/
inductive Consumer (ι : Type u) (β : Type v)
  | ready
  | loadedHead (curHead : Nat)
  | found (curHead : Nat)
  | copying (k : Nat) (copied : Set ι) (copy : ι → β)

/-- The shared memory and what everybody is doing. -/
structure State (κ : Type w) (ι : Type u) (β : Type v) where
  head : Nat
  tail : Nat
  items : Nat → ι → β
  producer : Producer ι β
  consumers : κ → Consumer ι β

/-- The queue as its creator leaves it. -/
def State.initial (items : Nat → ι → β) : State κ ι β :=
  ⟨0, 0, items, .idle, fun _ => .ready⟩

/-- The slot of a counter in a queue of `2 ^ k` slots: `index & _mask`. -/
def slot (k index : Nat) : Nat := index &&& (2 ^ k - 1)

theorem slot_eq (k index : Nat) : slot k index = index % 2 ^ k :=
  Nat.and_two_pow_sub_one_eq_mod index k

/-- What is seen of a step: a word stored by `push`, the store of `tail` that accepts a
message, the return from a full queue, and for a consumer the exchange that moves `head` from
`n` and its return with the copy. -/
inductive Event (κ : Type w) (ι : Type u) (β : Type v)
  | silent
  | wrote (word : ι)
  | accepted (data : ι → β)
  | dropped (data : ι → β)
  | claimed (i : κ) (n : Nat)
  | obtained (i : κ) (n : Nat) (copy : ι → β)

variable [DecidableEq κ] [DecidableEq ι]

/-- Another state of one consumer. -/
def State.withConsumer (s : State κ ι β) (i : κ) (consumer : Consumer ι β) : State κ ι β :=
  { s with consumers := Function.update s.consumers i consumer }

/-- One atomic step on a queue of `2 ^ k` slots. -/
inductive Step (k : Nat) : State κ ι β → Event κ ι β → State κ ι β → Prop
  | pushLoadHead {s} (idle : s.producer = .idle) (data : ι → β) :
      Step k s .silent { s with producer := .loadedHead data s.head }
  | pushFull {s data curHead} (loaded : s.producer = .loadedHead data curHead)
      (full : 2 ^ k ≤ s.tail - curHead) :
      Step k s (.dropped data) { s with producer := .idle }
  | pushPass {s data curHead} (loaded : s.producer = .loadedHead data curHead)
      (free : s.tail - curHead < 2 ^ k) :
      Step k s .silent { s with producer := .storing data s.tail ∅ }
  | storeWord {s data curTail stored} (storing : s.producer = .storing data curTail stored)
      (word : ι) :
      Step k s (.wrote word) { s with
        items := storeWord s.items (slot k curTail) word (data word)
        producer := .storing data curTail (insert word stored) }
  | storeTail {s data curTail stored} (storing : s.producer = .storing data curTail stored)
      (complete : ∀ word, word ∈ stored) :
      Step k s (.accepted data) { s with tail := curTail + 1, producer := .idle }
  | popLoadHead {s i} (ready : s.consumers i = .ready) :
      Step k s .silent (s.withConsumer i (.loadedHead s.head))
  | popFound {s i curHead} (loaded : s.consumers i = .loadedHead curHead)
      (pending : curHead < s.tail) :
      Step k s .silent (s.withConsumer i (.found curHead))
  | popPause {s i curHead} (loaded : s.consumers i = .loadedHead curHead)
      (nothing : s.tail ≤ curHead) :
      Step k s .silent (s.withConsumer i .ready)
  | claim {s i} (found : s.consumers i = .found s.head) (copy : ι → β) :
      Step k s (.claimed i s.head)
        { s.withConsumer i (.copying s.head ∅ copy) with head := s.head + 1 }
  | claimFailed {s i curHead} (found : s.consumers i = .found curHead) (moved : curHead ≠ s.head) :
      Step k s .silent (s.withConsumer i .ready)
  | copyWord {s i n copied copy} (copying : s.consumers i = .copying n copied copy) {word : ι}
      (fresh : word ∉ copied) :
      Step k s .silent (s.withConsumer i (.copying n (insert word copied)
        (Function.update copy word (s.items (slot k n) word))))
  | finish {s i n copied copy} (copying : s.consumers i = .copying n copied copy)
      (complete : ∀ word, word ∈ copied) :
      Step k s (.obtained i n copy) (s.withConsumer i .ready)

/-- No consumer has still to copy a word of the slot that the producer is storing to. -/
def Clear (k : Nat) (s : State κ ι β) (word : ι) : Prop :=
  ∀ data curTail stored i n copied copy, s.producer = .storing data curTail stored →
    s.consumers i = .copying n copied copy → slot k n = slot k curTail → word ∈ copied

/-- A step in which `push` stores a word only over words that nobody has still to copy. -/
def ClearStep (k : Nat) (s : State κ ι β) (e : Event κ ι β) (t : State κ ι β) : Prop :=
  Step k s e t ∧ ∀ word, e = .wrote word → Clear k s word

/-- The accepted messages, in order. -/
def accepted (events : List (Event κ ι β)) : List (ι → β) :=
  events.filterMap fun
    | .accepted data => some data
    | _ => none

/-- The numbers claimed by consumers, in order. -/
def claims (events : List (Event κ ι β)) : List Nat :=
  events.filterMap fun
    | .claimed _ n => some n
    | _ => none

/-- The numbers that consumers returned with, in order. -/
def obtained (events : List (Event κ ι β)) : List Nat :=
  events.filterMap fun
    | .obtained _ n _ => some n
    | _ => none

variable {k : Nat} {s t : State κ ι β} {e : Event κ ι β} {messages : List (ι → β)}

omit [DecidableEq ι] in
theorem State.withConsumer_self (s : State κ ι β) (i : κ) (consumer : Consumer ι β) :
    (s.withConsumer i consumer).consumers i = consumer :=
  Function.update_self ..

omit [DecidableEq ι] in
theorem State.withConsumer_of_ne (s : State κ ι β) {i j : κ} (ne : j ≠ i)
    (consumer : Consumer ι β) : (s.withConsumer i consumer).consumers j = s.consumers j :=
  Function.update_of_ne ne ..

/-! ## The slots -/

/-- What the producer knows. It has counted the slot it stores to as free. -/
def ProducerOk (k : Nat) (s : State κ ι β) : Prop :=
  match s.producer with
  | .idle => True
  | .loadedHead _ curHead => curHead ≤ s.head
  | .storing data curTail stored => curTail = s.tail ∧ s.tail < s.head + 2 ^ k ∧
      ∀ word ∈ stored, s.items (slot k curTail) word = data word

/-- What a consumer knows. Of the message it claimed, each word is in its copy or still in
the slot. -/
def ConsumerOk (k : Nat) (messages : List (ι → β)) (s : State κ ι β) : Consumer ι β → Prop
  | .ready => True
  | .loadedHead curHead => curHead ≤ s.head
  | .found curHead => curHead ≤ s.head ∧ curHead < s.tail
  | .copying n copied copy => ∃ inside : n < messages.length, n < s.head ∧
      (∀ word ∈ copied, copy word = messages[n] word) ∧
      ∀ word, word ∉ copied → s.items (slot k n) word = messages[n] word

/-- The accepted messages that nobody has claimed are in their slots. -/
structure Invariant (k : Nat) (messages : List (ι → β)) (s : State κ ι β) : Prop where
  tail : s.tail = messages.length
  head_le : s.head ≤ s.tail
  room : s.tail ≤ s.head + 2 ^ k
  kept : Holds (2 ^ k) 0 s.items messages s.head
  producer : ProducerOk k s
  consumers : ∀ i, ConsumerOk k messages s (s.consumers i)

omit [DecidableEq κ] [DecidableEq ι] in
theorem invariant_initial (k : Nat) (items : Nat → ι → β) :
    Invariant k [] (State.initial items : State κ ι β) :=
  ⟨rfl, Nat.le_refl 0, Nat.zero_le _, Holds.nil, trivial, fun _ => trivial⟩

omit [DecidableEq κ] [DecidableEq ι] in
/-- What a consumer knows stays true while the counters grow and the words it has still to
copy are left alone. -/
theorem ConsumerOk.mono {consumer : Consumer ι β} (h : ConsumerOk k messages s consumer)
    (more : List (ι → β)) (head : s.head ≤ t.head) (tail : s.tail ≤ t.tail)
    (items : ∀ n copied copy, consumer = .copying n copied copy → ∀ word, word ∉ copied →
      t.items (slot k n) word = s.items (slot k n) word) :
    ConsumerOk k (messages ++ more) t consumer := by
  cases consumer with
  | ready => trivial
  | loadedHead curHead => exact h.trans head
  | found curHead => exact ⟨h.1.trans head, h.2.trans_le tail⟩
  | copying n copied copy =>
      obtain ⟨inside, claimed, own, rest⟩ := h
      refine ⟨inside.trans_le (by simp), claimed.trans_le head, ?_, ?_⟩
      · intro word done
        rw [List.getElem_append_left inside]
        exact own word done
      · intro word uncopied
        rw [List.getElem_append_left inside, items n copied copy rfl word uncopied]
        exact rest word uncopied

omit [DecidableEq κ] [DecidableEq ι] in
theorem Invariant.withProducer (h : Invariant k messages s) {producer : Producer ι β}
    (ok : ProducerOk k { s with producer := producer }) :
    Invariant k messages { s with producer := producer } :=
  ⟨h.tail, h.head_le, h.room, h.kept, ok, h.consumers⟩

omit [DecidableEq ι] in
theorem Invariant.withConsumer (h : Invariant k messages s) (i : κ) {consumer : Consumer ι β}
    (ok : ConsumerOk k messages s consumer) : Invariant k messages (s.withConsumer i consumer) := by
  refine ⟨h.tail, h.head_le, h.room, h.kept, h.producer, ?_⟩
  intro j
  by_cases own : j = i
  · subst own
    rw [s.withConsumer_self]
    exact ok
  · rw [s.withConsumer_of_ne own]
    exact h.consumers j

omit [DecidableEq κ] in
/-- A word stored where it is clear changes no message that is pending or being copied. -/
theorem Invariant.storeWord (h : Invariant k messages s) {data : ι → β} {curTail : Nat}
    {stored : Set ι} (storing : s.producer = .storing data curTail stored) {word : ι}
    (clear : Clear k s word) :
    Invariant k messages { s with
      items := SlotRing.storeWord s.items (slot k curTail) word (data word)
      producer := .storing data curTail (insert word stored) } := by
  have producer := h.producer
  rw [ProducerOk, storing] at producer
  obtain ⟨rfl, free, words⟩ := producer
  refine ⟨h.tail, h.head_le, h.room, ?_, ⟨rfl, free, ?_⟩, ?_⟩
  · rw [slot_eq]
    exact h.kept.storeWord h.tail.ge free word (data word)
  · intro word' member
    dsimp only
    rw [storeWord_self]
    by_cases same : word' = word
    · subst same
      exact Function.update_self ..
    · rw [Function.update_of_ne same]
      exact words word' (member.resolve_left same)
  · intro i
    have kept := (h.consumers i).mono (t := { s with
      items := SlotRing.storeWord s.items (slot k s.tail) word (data word) }) []
      (Nat.le_refl _) (Nat.le_refl _) ?_
    · rwa [List.append_nil] at kept
    · intro n copied copy copying word' uncopied
      by_cases here : slot k n = slot k s.tail
      · have ne : word' ≠ word := by
          rintro rfl
          exact uncopied (clear data _ stored i n copied copy storing copying here)
        dsimp only
        rw [here, storeWord_self, Function.update_of_ne ne]
      · exact congrFun (storeWord_of_ne here ..) word'

omit [DecidableEq κ] [DecidableEq ι] in
/-- The store of `tail` accepts the message whose words are stored. -/
theorem Invariant.storeTail (h : Invariant k messages s) {data : ι → β} {curTail : Nat}
    {stored : Set ι} (storing : s.producer = .storing data curTail stored)
    (complete : ∀ word, word ∈ stored) :
    Invariant k (messages ++ [data]) { s with tail := curTail + 1, producer := .idle } := by
  have producer := h.producer
  rw [ProducerOk, storing] at producer
  obtain ⟨rfl, free, words⟩ := producer
  refine ⟨?_, h.head_le.trans (Nat.le_succ _), free, ?_, trivial, ?_⟩
  · rw [List.length_append, h.tail]
    rfl
  · refine h.kept.extend (funext fun word => ?_)
    rw [Nat.add_zero, ← h.tail, ← slot_eq]
    exact words word (complete word)
  · intro i
    exact (h.consumers i).mono [data] (Nat.le_refl _) (Nat.le_succ _) fun _ _ _ _ _ _ => rfl

omit [DecidableEq ι] in
/-- A consumer that moves `head` takes on the oldest pending message. -/
theorem Invariant.claim (h : Invariant k messages s) {i : κ}
    (found : s.consumers i = .found s.head) (copy : ι → β) :
    Invariant k messages
      { s.withConsumer i (.copying s.head ∅ copy) with head := s.head + 1 } := by
  have pending : s.head < s.tail := by
    have known := h.consumers i
    rw [found] at known
    exact known.2
  refine ⟨h.tail, pending, by have room := h.room; dsimp only [State.withConsumer]; omega,
    h.kept.mono (Nat.le_succ _), ?_, ?_⟩
  · have producer := h.producer
    cases doing : s.producer with
    | idle =>
        rw [ProducerOk]
        simp only [State.withConsumer, doing]
    | loadedHead data curHead =>
        rw [ProducerOk, doing] at producer
        rw [ProducerOk]
        simp only [State.withConsumer, doing]
        exact Nat.le_succ_of_le producer
    | storing data curTail stored =>
        rw [ProducerOk, doing] at producer
        rw [ProducerOk]
        simp only [State.withConsumer, doing]
        exact ⟨producer.1, by omega, producer.2.2⟩
  · intro j
    by_cases own : j = i
    · subst own
      have inside : s.head < messages.length := h.tail ▸ pending
      refine (s.withConsumer_self j _).symm ▸ ⟨inside, Nat.lt_succ_self _, ?_, ?_⟩
      · intro word none
        exact absurd none (Set.notMem_empty word)
      · intro word _
        rw [slot_eq]
        exact congrFun (h.kept s.head inside (Nat.le_refl _)) word
    · have kept := (h.consumers j).mono
        (t := { s.withConsumer i (.copying s.head ∅ copy) with head := s.head + 1 }) []
        (Nat.le_succ _) (Nat.le_refl _) fun _ _ _ _ _ _ => rfl
      rw [List.append_nil] at kept
      exact (s.withConsumer_of_ne own _).symm ▸ kept

omit [DecidableEq κ] [DecidableEq ι] in
/-- A step that accepts no message. -/
theorem Invariant.of_silent (silent : accepted [e] = []) (h : Invariant k messages t) :
    Invariant k (messages ++ accepted [e]) t := by
  rw [silent, List.append_nil]
  exact h

theorem Invariant.step (h : Invariant k messages s) (taken : ClearStep k s e t) :
    Invariant k (messages ++ accepted [e]) t := by
  obtain ⟨taken, clear⟩ := taken
  cases taken with
  | pushLoadHead idle data =>
      exact .of_silent rfl (h.withProducer (Nat.le_refl s.head))
  | pushFull loaded full =>
      exact .of_silent rfl (h.withProducer trivial)
  | @pushPass data curHead loaded free =>
      have before := h.producer
      rw [ProducerOk, loaded] at before
      dsimp only at before
      refine .of_silent rfl (h.withProducer ⟨rfl, ?_, ?_⟩)
      · change s.tail < s.head + 2 ^ k
        omega
      · intro word none
        exact absurd none (Set.notMem_empty word)
  | @storeWord data curTail stored storing word =>
      exact .of_silent rfl (h.storeWord storing (clear word rfl))
  | storeTail storing complete => exact h.storeTail storing complete
  | popLoadHead ready =>
      exact .of_silent rfl (h.withConsumer _ (Nat.le_refl s.head))
  | @popFound i curHead loaded pending =>
      have before := h.consumers i
      rw [loaded] at before
      exact .of_silent rfl (h.withConsumer i ⟨before, pending⟩)
  | popPause loaded nothing =>
      exact .of_silent rfl (h.withConsumer _ trivial)
  | claim found copy =>
      exact .of_silent rfl (h.claim found copy)
  | claimFailed found moved =>
      exact .of_silent rfl (h.withConsumer _ trivial)
  | @copyWord i n copied copy copying word fresh =>
      have before := h.consumers i
      rw [copying] at before
      obtain ⟨inside, claimed, own, rest⟩ := before
      refine .of_silent rfl (h.withConsumer i ⟨inside, claimed, ?_, ?_⟩)
      · intro word' member
        by_cases same : word' = word
        · subst same
          rw [Function.update_self]
          exact rest word' fresh
        · rw [Function.update_of_ne same]
          exact own word' (member.resolve_left same)
      · intro word' uncopied
        exact rest word' fun done => uncopied (Set.mem_insert_of_mem word done)
  | finish copying complete =>
      exact .of_silent rfl (h.withConsumer _ trivial)

/-! ## The numbers claimed and obtained -/

/-- Consumer `i` moved `head` from `n` and has not returned. -/
def State.Copies (s : State κ ι β) (i : κ) (n : Nat) : Prop :=
  ∃ copied copy, s.consumers i = .copying n copied copy

/-- Each number below `head` was claimed by one consumer, which returned with it once and
with the message of that number, or is still copying it. -/
structure History (events : List (Event κ ι β)) (s : State κ ι β) : Prop where
  claims : claims events = List.range s.head
  obtained : ∀ i n copy, .obtained i n copy ∈ events →
    .claimed i n ∈ events ∧ (accepted events)[n]? = some copy
  below : ∀ n ∈ Consumers.obtained events, n < s.head
  once : (Consumers.obtained events).Nodup
  complete : ∀ n, n < s.head → n ∈ Consumers.obtained events ∨ ∃ i, s.Copies i n
  owner : ∀ i n, s.Copies i n →
    .claimed i n ∈ events ∧ n < s.head ∧ n ∉ Consumers.obtained events
  single : ∀ i j n, s.Copies i n → s.Copies j n → i = j

variable {events : List (Event κ ι β)}

omit [DecidableEq κ] [DecidableEq ι] in
/-- An accepted message keeps its number. -/
theorem accepted_append (e : Event κ ι β) {n : Nat} {data : ι → β}
    (here : (accepted events)[n]? = some data) :
    (accepted (events ++ [e]))[n]? = some data := by
  obtain ⟨inside, -⟩ := List.getElem?_eq_some_iff.mp here
  rw [accepted, List.filterMap_append, ← accepted, List.getElem?_append_left inside, here]

omit [DecidableEq κ] [DecidableEq ι] in
theorem claims_append (e : Event κ ι β) : claims (events ++ [e]) = claims events ++ claims [e] :=
  List.filterMap_append ..

omit [DecidableEq κ] [DecidableEq ι] in
theorem obtained_append (e : Event κ ι β) :
    obtained (events ++ [e]) = obtained events ++ obtained [e] :=
  List.filterMap_append ..

omit [DecidableEq κ] [DecidableEq ι] in
theorem history_initial (items : Nat → ι → β) :
    History [] (State.initial items : State κ ι β) := by
  refine ⟨rfl, ?_, ?_, List.nodup_nil, ?_, ?_, ?_⟩
  · intro i n copy member
    cases member
  · intro n member
    cases member
  · intro n claimed
    cases claimed
  · rintro i n ⟨copied, copy, copying⟩
    cases copying
  · rintro i j n ⟨copied, copy, copying⟩
    cases copying

omit [DecidableEq κ] [DecidableEq ι] in
/-- A step that claims nothing and returns nothing. -/
theorem History.quiet (h : History events s) (head : t.head = s.head)
    (copies : ∀ i n, t.Copies i n ↔ s.Copies i n) (noClaim : Consumers.claims [e] = [])
    (noReturn : Consumers.obtained [e] = []) : History (events ++ [e]) t := by
  have returned : Consumers.obtained (events ++ [e]) = Consumers.obtained events := by
    rw [obtained_append, noReturn, List.append_nil]
  refine ⟨?_, ?_, ?_, ?_, ?_, ?_, ?_⟩
  · rw [claims_append, noClaim, List.append_nil, head]
    exact h.claims
  · intro i n copy member
    rcases List.mem_append.mp member with old | new
    · obtain ⟨claimed, own⟩ := h.obtained i n copy old
      exact ⟨List.mem_append_left _ claimed, accepted_append e own⟩
    · rw [← List.mem_singleton.mp new] at noReturn
      cases noReturn
  · rw [returned, head]
    exact h.below
  · rw [returned]
    exact h.once
  · intro n claimed
    rw [returned]
    simp only [copies]
    exact h.complete n (head ▸ claimed)
  · intro i n copying
    obtain ⟨claimed, below, ongoing⟩ := h.owner i n ((copies i n).mp copying)
    rw [returned, head]
    exact ⟨List.mem_append_left _ claimed, below, ongoing⟩
  · intro i j n copying copying'
    exact h.single i j n ((copies i n).mp copying) ((copies j n).mp copying')

omit [DecidableEq ι] in
/-- Who copies what after consumer `i` has claimed a number. -/
theorem copies_of_claim {i j : κ} {n : Nat} {copy : ι → β}
    (copies : State.Copies
      { s.withConsumer i (.copying s.head ∅ copy) with head := s.head + 1 } j n) :
    (j = i ∧ n = s.head) ∨ (j ≠ i ∧ s.Copies j n) := by
  obtain ⟨copied, copy', copying⟩ := copies
  by_cases own : j = i
  · subst own
    have doing := (s.withConsumer_self j _).symm.trans copying
    cases doing
    exact Or.inl ⟨rfl, rfl⟩
  · exact Or.inr ⟨own, copied, copy', (s.withConsumer_of_ne own _).symm.trans copying⟩

omit [DecidableEq ι] in
/-- Who copies what after consumer `i` has finished. -/
theorem copies_of_ready {i j : κ} {n : Nat} (copies : (s.withConsumer i .ready).Copies j n) :
    j ≠ i ∧ s.Copies j n := by
  obtain ⟨copied, copy, copying⟩ := copies
  have other : j ≠ i := by
    rintro rfl
    rw [s.withConsumer_self] at copying
    cases copying
  exact ⟨other, copied, copy, (s.withConsumer_of_ne other _).symm.trans copying⟩

omit [DecidableEq ι] in
theorem History.claim (h : History events s) {i : κ} (found : s.consumers i = .found s.head)
    (copy : ι → β) : History (events ++ [.claimed i s.head])
      { s.withConsumer i (.copying s.head ∅ copy) with head := s.head + 1 } := by
  have returned : Consumers.obtained (events ++ [.claimed i s.head]) =
      Consumers.obtained events := by
    rw [obtained_append]
    exact List.append_nil _
  refine ⟨?_, ?_, ?_, ?_, ?_, ?_, ?_⟩
  · rw [claims_append, h.claims]
    exact List.range_succ.symm
  · intro j n copy' member
    rcases List.mem_append.mp member with old | new
    · obtain ⟨claimed, own⟩ := h.obtained j n copy' old
      exact ⟨List.mem_append_left _ claimed, accepted_append _ own⟩
    · cases List.mem_singleton.mp new
  · intro n member
    rw [returned] at member
    exact Nat.lt_succ_of_lt (h.below n member)
  · rw [returned]
    exact h.once
  · intro n claimed
    rw [returned]
    by_cases last : n = s.head
    · subst last
      exact Or.inr ⟨i, ∅, copy, s.withConsumer_self i _⟩
    · have before : n < s.head := lt_of_le_of_ne (Nat.le_of_lt_succ claimed) last
      refine (h.complete n before).imp_right ?_
      rintro ⟨j, copied, copy', copying⟩
      have other : j ≠ i := by
        rintro rfl
        rw [found] at copying
        cases copying
      exact ⟨j, copied, copy', (s.withConsumer_of_ne other _).trans copying⟩
  · intro j n copying
    rw [returned]
    rcases copies_of_claim copying with ⟨rfl, rfl⟩ | ⟨-, old⟩
    · refine ⟨List.mem_append_right _ (List.mem_singleton_self _), Nat.lt_succ_self _, ?_⟩
      exact fun member => Nat.lt_irrefl _ (h.below _ member)
    · obtain ⟨claimed, below, ongoing⟩ := h.owner j n old
      exact ⟨List.mem_append_left _ claimed, Nat.lt_succ_of_lt below, ongoing⟩
  · intro j j' n copying copying'
    rcases copies_of_claim copying with ⟨rfl, rfl⟩ | ⟨-, old⟩ <;>
      rcases copies_of_claim copying' with ⟨rfl, same⟩ | ⟨-, old'⟩
    · rfl
    · exact absurd (h.owner _ _ old').2.1 (Nat.lt_irrefl _)
    · exact absurd (same ▸ (h.owner _ _ old).2.1) (Nat.lt_irrefl _)
    · exact h.single j j' n old old'

omit [DecidableEq ι] in
theorem History.finish (h : History events s) {i : κ} {n : Nat} {copied : Set ι} {copy : ι → β}
    (copying : s.consumers i = .copying n copied copy)
    (own : (accepted events)[n]? = some copy) :
    History (events ++ [.obtained i n copy]) (s.withConsumer i .ready) := by
  have mine : s.Copies i n := ⟨copied, copy, copying⟩
  obtain ⟨claimed, below, fresh⟩ := h.owner i n mine
  have returned : Consumers.obtained (events ++ [.obtained i n copy]) =
      Consumers.obtained events ++ [n] := obtained_append _
  refine ⟨?_, ?_, ?_, ?_, ?_, ?_, ?_⟩
  · rw [claims_append]
    exact (List.append_nil _).trans h.claims
  · intro j m copy' member
    rcases List.mem_append.mp member with old | new
    · obtain ⟨claimed', own'⟩ := h.obtained j m copy' old
      exact ⟨List.mem_append_left _ claimed', accepted_append _ own'⟩
    · cases List.mem_singleton.mp new
      exact ⟨List.mem_append_left _ claimed, accepted_append _ own⟩
  · intro m member
    rw [returned] at member
    rcases List.mem_append.mp member with old | new
    · exact h.below m old
    · rw [List.mem_singleton.mp new]
      exact below
  · rw [returned]
    refine List.Nodup.append h.once (List.nodup_singleton n) ?_
    exact List.disjoint_singleton.mpr fresh
  · intro m claimed'
    rw [returned]
    rcases h.complete m claimed' with old | ⟨j, copying'⟩
    · exact Or.inl (List.mem_append_left _ old)
    · by_cases same : j = i
      · subst same
        obtain ⟨copied', copy', doing⟩ := copying'
        cases copying.symm.trans doing
        exact Or.inl (List.mem_append_right _ (List.mem_singleton_self _))
      · obtain ⟨copied', copy', doing⟩ := copying'
        exact Or.inr ⟨j, copied', copy', (s.withConsumer_of_ne same _).trans doing⟩
  · intro j m copying'
    obtain ⟨other, old⟩ := copies_of_ready copying'
    obtain ⟨claimed', below', ongoing⟩ := h.owner j m old
    refine ⟨List.mem_append_left _ claimed', below', ?_⟩
    rw [returned, List.mem_append, List.mem_singleton]
    rintro (again | rfl)
    · exact ongoing again
    · exact other (h.single j i _ old mine)
  · intro j j' m copying' copying''
    exact h.single j j' m (copies_of_ready copying').2 (copies_of_ready copying'').2

omit [DecidableEq ι] in
/-- Only the number that a consumer copies matters for who copies what. -/
theorem copies_withConsumer {i : κ} {consumer : Consumer ι β}
    (same : ∀ n, (∃ copied copy, consumer = .copying n copied copy) ↔ s.Copies i n) (j : κ)
    (n : Nat) : (s.withConsumer i consumer).Copies j n ↔ s.Copies j n := by
  by_cases own : j = i
  · subst own
    rw [← same n, State.Copies, s.withConsumer_self]
  · rw [State.Copies, s.withConsumer_of_ne own, State.Copies]

theorem History.step (h : History events s) (slots : Invariant k (accepted events) s)
    (taken : Step k s e t) : History (events ++ [e]) t := by
  -- moves of a consumer that is not copying, before or after
  have apart : ∀ {i consumer}, (∀ n, ¬ s.Copies i n) →
      (∀ n copied copy, consumer ≠ .copying n copied copy) → ∀ j n,
      (s.withConsumer i consumer).Copies j n ↔ s.Copies j n := by
    intro i consumer before after
    refine copies_withConsumer fun n => iff_of_false ?_ (before n)
    rintro ⟨copied, copy, copying⟩
    exact after n copied copy copying
  have nothing : ∀ {i consumer}, s.consumers i = consumer →
      (∀ n copied copy, consumer ≠ .copying n copied copy) → ∀ n, ¬ s.Copies i n := by
    rintro i consumer rfl other n ⟨copied, copy, copying⟩
    exact other n copied copy copying
  cases taken with
  | pushLoadHead => exact h.quiet rfl (fun _ _ => Iff.rfl) rfl rfl
  | pushFull => exact h.quiet rfl (fun _ _ => Iff.rfl) rfl rfl
  | pushPass => exact h.quiet rfl (fun _ _ => Iff.rfl) rfl rfl
  | storeWord => exact h.quiet rfl (fun _ _ => Iff.rfl) rfl rfl
  | storeTail => exact h.quiet rfl (fun _ _ => Iff.rfl) rfl rfl
  | popLoadHead ready =>
      exact h.quiet rfl (apart (nothing ready (by simp)) (by simp)) rfl rfl
  | popFound loaded =>
      exact h.quiet rfl (apart (nothing loaded (by simp)) (by simp)) rfl rfl
  | popPause loaded =>
      exact h.quiet rfl (apart (nothing loaded (by simp)) (by simp)) rfl rfl
  | claim found copy => exact h.claim found copy
  | claimFailed found =>
      exact h.quiet rfl (apart (nothing found (by simp)) (by simp)) rfl rfl
  | @copyWord i n copied copy copying word fresh =>
      refine h.quiet rfl (copies_withConsumer fun m => ?_) rfl rfl
      rw [State.Copies, copying]
      simp
  | @finish i n copied copy copying complete =>
      have known := slots.consumers i
      rw [copying] at known
      obtain ⟨inside, -, own, -⟩ := known
      refine h.finish copying ?_
      rw [List.getElem?_eq_getElem inside]
      exact congrArg some (funext fun word => own word (complete word)).symm

/-! ## Runs -/

/-- What the queue promises. The numbers below `head` are claimed one after the other. The
consumer that claims one returns with it once, with the message accepted under this number.
Until a message is copied it is in its slot, word for word. -/
structure ExactlyOnce (k : Nat) (events : List (Event κ ι β)) (s : State κ ι β) : Prop where
  claimed : claims events = List.range s.head
  payload : ∀ i n copy, .obtained i n copy ∈ events →
    .claimed i n ∈ events ∧ (accepted events)[n]? = some copy
  once : (obtained events).Nodup
  complete : ∀ n, n < s.head → n ∈ obtained events ∨ ∃ i, s.Copies i n
  copying : ∀ i n copied copy, s.consumers i = .copying n copied copy →
    .claimed i n ∈ events ∧ ∃ data, (accepted events)[n]? = some data ∧
      (∀ word ∈ copied, copy word = data word) ∧
      ∀ word, word ∉ copied → s.items (slot k n) word = data word
  pending : ∀ n data, s.head ≤ n → (accepted events)[n]? = some data → s.items (slot k n) = data

theorem kept {items : Nat → ι → β}
    (run : Run (ClearStep k) (State.initial items : State κ ι β) events s) :
    Invariant k (accepted events) s ∧ History events s := by
  refine run.invariant (I := fun events s => Invariant k (accepted events) s ∧ History events s)
    ⟨invariant_initial k items, history_initial items⟩ ?_
  rintro events s e t ⟨slots, history⟩ taken
  have accepted_eq : accepted (events ++ [e]) = accepted events ++ accepted [e] :=
    List.filterMap_append ..
  rw [accepted_eq]
  exact ⟨slots.step taken, history.step slots taken.1⟩

/-- In every run in which `push` stores no word over one that a consumer has claimed and not
copied yet, each accepted message is delivered exactly once and in order. -/
theorem exactly_once {items : Nat → ι → β}
    (run : Run (ClearStep k) (State.initial items : State κ ι β) events s) :
    ExactlyOnce k events s := by
  obtain ⟨slots, history⟩ := kept run
  refine ⟨history.claims, history.obtained, history.once, history.complete, ?_, ?_⟩
  · intro i n copied copy copying
    have known := slots.consumers i
    rw [copying] at known
    obtain ⟨inside, -, own, rest⟩ := known
    exact ⟨(history.owner i n ⟨copied, copy, copying⟩).1, _, List.getElem?_eq_getElem inside, own,
      rest⟩
  · intro n data unclaimed here
    obtain ⟨inside, rfl⟩ := List.getElem?_eq_some_iff.mp here
    rw [slot_eq]
    exact slots.kept n inside unclaimed

/-- A step that stores no word is clear. -/
theorem ClearStep.of_silent (taken : Step k s e t) (silent : ∀ word, e ≠ .wrote word) :
    ClearStep k s e t :=
  ⟨taken, fun word wrote => absurd wrote (silent word)⟩

/-- A queue of two slots for messages of one word, with two consumers. -/
def twoSlots : State Bool Unit Nat := State.initial fun _ _ => 0

/-- Both consumers find the first message and one of them claims it, while the second message is
pushed. The other one claims that, and returns first. -/
theorem exactly_once_one : ∃ (events : List (Event Bool Unit Nat)) (s : State Bool Unit Nat),
    Run (ClearStep 1) twoSlots events s ∧ accepted events = [fun _ => 7, fun _ => 8] ∧
      obtained events = [1, 0] ∧ s.head = 2 ∧ ExactlyOnce 1 events s := by
  have all : ∀ word, word ∈ insert () (∅ : Set Unit) := fun word => Or.inl rfl
  have idle : Run (ClearStep 1) twoSlots [] twoSlots := .refl
  have tested := (idle.snoc (.of_silent (.pushLoadHead rfl fun _ => 7)
    nofun)).snoc (.of_silent (.pushPass rfl (by decide)) nofun)
  have stored := tested.snoc ⟨.storeWord rfl (), by
    rintro word - data curTail stored i n copied copy - copying
    cases copying⟩
  have pushed := stored.snoc (.of_silent (.storeTail rfl all) nofun)
  have found := (((pushed.snoc (.of_silent (.popLoadHead (i := true) rfl) nofun)).snoc
    (.of_silent (.popLoadHead (i := false) rfl) nofun)).snoc
    (.of_silent (.popFound (i := true) rfl (by decide)) nofun)).snoc
    (.of_silent (.popFound (i := false) rfl (by decide)) nofun)
  have tested' := (found.snoc (.of_silent (.pushLoadHead rfl fun _ => 8) nofun)).snoc
    (.of_silent (.pushPass rfl (by decide)) nofun)
  have claimed := (tested'.snoc (.of_silent (.claim (i := true) rfl fun _ => 0) nofun)).snoc
    (.of_silent (.claimFailed (i := false) rfl (by decide)) nofun)
  have stored' := claimed.snoc ⟨.storeWord rfl (), by
    rintro word - data curTail stored i n copied copy storing copying same
    -- the message that is being copied is in the other slot
    cases i with
    | false => cases copying
    | true =>
        cases copying
        cases storing
        exact absurd same (by decide)⟩
  have pushed' := stored'.snoc (.of_silent (.storeTail rfl all) nofun)
  have claimed' := ((pushed'.snoc (.of_silent (.popLoadHead (i := false) rfl) nofun)).snoc
    (.of_silent (.popFound (i := false) rfl (by decide)) nofun)).snoc
    (.of_silent (.claim (i := false) rfl fun _ => 0) nofun)
  have copied := (claimed'.snoc (.of_silent
    (.copyWord (i := true) rfl (Set.notMem_empty ())) nofun)).snoc
    (.of_silent (.copyWord (i := false) rfl (Set.notMem_empty ())) nofun)
  have finished := (copied.snoc (.of_silent (.finish (i := false) rfl all) nofun)).snoc
    (.of_silent (.finish (i := true) rfl all) nofun)
  exact ⟨_, _, finished, rfl, rfl, rfl, exactly_once finished⟩

/-- A queue of one slot for messages of one word, with one consumer. -/
def oneSlot : State Unit Unit Nat := State.initial fun _ _ => 0

/-- The message 7 is pushed and claimed. -/
theorem run_claim : ∃ events s, Run (ClearStep 0) oneSlot events s ∧
    accepted events = [fun _ => 7] ∧ s.head = 1 ∧ s.tail = 1 ∧ s.producer = .idle ∧
      s.consumers () = .copying 0 ∅ fun _ => 0 := by
  have all : ∀ word, word ∈ insert () (∅ : Set Unit) := fun word => Or.inl rfl
  have idle : Run (ClearStep 0) oneSlot [] oneSlot := .refl
  have tested := (idle.snoc (.of_silent (.pushLoadHead rfl fun _ => 7)
    nofun)).snoc (.of_silent (.pushPass rfl Nat.one_pos) nofun)
  have stored := tested.snoc ⟨.storeWord rfl (), by
    rintro word - data curTail stored i n copied copy - copying
    cases copying⟩
  have pushed := stored.snoc (.of_silent (.storeTail rfl all) nofun)
  have found := (pushed.snoc (.of_silent (.popLoadHead (i := ()) rfl) nofun)).snoc
    (.of_silent (.popFound (i := ()) rfl Nat.one_pos) nofun)
  exact ⟨_, _, found.snoc (.of_silent (.claim (i := ()) rfl fun _ => 0) nofun), rfl, rfl, rfl, rfl,
    rfl⟩

/-- The next push, of the message 9, goes over the message that the consumer has claimed:
the consumer returns with 9 for number 0. -/
theorem overwritten_while_copied :
    ∃ (events : List (Event Unit Unit Nat)) (s : State Unit Unit Nat),
    Run (Step 0) oneSlot events s ∧ (accepted events)[0]? = some (fun _ => 7) ∧
      .obtained () 0 (fun _ => 9) ∈ events := by
  obtain ⟨events, s, clear, accepted_eq, head, tail, idle, copying⟩ := run_claim
  have run : Run (Step 0) oneSlot (events.map id) s := clear.map fun taken => taken.1
  rw [List.map_id] at run
  have first : (accepted events)[0]? = some (fun _ => 7) := by rw [accepted_eq]; rfl
  have free : s.tail - s.head < 2 ^ 0 := by
    rw [head, tail]
    exact Nat.one_pos
  let tested : State Unit Unit Nat := { s with producer := .storing (fun _ => 9) s.tail ∅ }
  have passed : Run (Step 0) oneSlot _ tested :=
    (run.snoc (.pushLoadHead idle fun _ => 9)).snoc (.pushPass rfl free)
  let stored : State Unit Unit Nat := { s with
    items := storeWord s.items (slot 0 s.tail) () 9
    producer := .storing (fun _ => 9) s.tail (insert () ∅) }
  let copied := stored.withConsumer () (.copying 0 (insert () ∅) fun _ => 9)
  have storing : tested.producer = .storing (fun _ => 9) s.tail ∅ := rfl
  have write : Step 0 tested (.wrote ()) stored := .storeWord storing ()
  have value : Function.update (fun _ => 0) () (stored.items (slot 0 0) ()) =
      fun _ : Unit => 9 := by
    have here : slot 0 0 = slot 0 s.tail := by
      rw [tail]
      rfl
    funext word
    rw [Function.update_self, here]
    exact (congrFun (storeWord_self ..) ()).trans (Function.update_self ..)
  have copy : Step 0 stored .silent copied := by
    have taken := Step.copyWord (k := 0) (s := stored) copying (Set.notMem_empty ())
    rwa [value] at taken
  have finish : Step 0 copied (.obtained () 0 fun _ => 9) (copied.withConsumer () .ready) :=
    .finish (stored.withConsumer_self () _) fun word => Or.inl rfl
  refine ⟨_, _, ((passed.snoc write).snoc copy).snoc finish, ?_,
    List.mem_append_right _ (List.mem_singleton_self _)⟩
  exact accepted_append _ (accepted_append _ (accepted_append _ (accepted_append _
    (accepted_append _ first))))

end RazorCrypto.ShmQueue.Consumers
