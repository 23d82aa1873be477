import Mathlib.Data.List.Induction
import Mathlib.Data.Set.Insert
import RazorCrypto.Foundation.SlotRing
import RazorCrypto.Foundation.Transition

/-!
# Publication through slots, with a reader that copies word by word

One writer stores an entry into a slot, word by word, and then increments a counter. One
reader reads the counter, and then copies the slot of the newest entry, word by word. No
lock is taken: the two interleave freely, over sequentially consistent memory. Words may be
stored and copied in any order and more than once.

The slots used are given by two functions of the counter. `Accesses n off` says that the
writer uses the slots of a ring in turn and that the reader looks where the newest entry
was stored. Then a copy is intact if the counter has grown by at most `n - 2` at its end:
the writer may overwrite the slot of the entry one lap before the one it is writing.
-/

universe u v

namespace SlotPublication

open SlotRing Transition

variable {ι : Type u} {β : Type v} [DecidableEq ι]

/-- An entry being stored, and the words stored so far. -/
structure Storing (ι : Type u) (β : Type v) where
  data : ι → β
  stored : Set ι

/-- A copy being made: the counter that was read and the words copied so far. -/
structure Copying (ι : Type u) (β : Type v) where
  index : Nat
  copied : Set ι
  copy : ι → β

/-- The shared memory and what the writer and the reader are doing. -/
structure State (ι : Type u) (β : Type v) where
  slots : Nat → ι → β
  index : Nat
  writer : Option (Storing ι β)
  reader : Option (Copying ι β)

/-- One atomic step. The event of the writer's increment is the entry it completes. The
reader's copy is made into memory of any content. -/
inductive Step (writeSlot readSlot : Nat → Nat) :
    State ι β → Option (ι → β) → State ι β → Prop
  | start {s} (idle : s.writer = none) (data : ι → β) :
      Step writeSlot readSlot s none { s with writer := some ⟨data, ∅⟩ }
  | storeWord {s w} (storing : s.writer = some w) (word : ι) :
      Step writeSlot readSlot s none { s with
        slots := storeWord s.slots (writeSlot s.index) word (w.data word)
        writer := some { w with stored := insert word w.stored } }
  | increment {s w} (storing : s.writer = some w) (complete : ∀ word, word ∈ w.stored) :
      Step writeSlot readSlot s (some w.data) { s with index := s.index + 1, writer := none }
  | readIndex {s} (idle : s.reader = none) (pos : 1 ≤ s.index) (copy : ι → β) :
      Step writeSlot readSlot s none { s with reader := some ⟨s.index, ∅, copy⟩ }
  | copyWord {s r} (copying : s.reader = some r) (word : ι) :
      Step writeSlot readSlot s none { s with reader := some { r with
        copied := insert word r.copied
        copy := Function.update r.copy word (s.slots (readSlot r.index) word) } }
  | finish {s r} (copying : s.reader = some r) :
      Step writeSlot readSlot s none { s with reader := none }

/-- The entries completed in a run. -/
def entries (events : List (Option (ι → β))) : List (ι → β) := events.filterMap id

/-- Store a whole entry and count it. -/
def storeEntry {ε : Type v} (writeSlot : Nat → Nat) (state : (Nat → ε) × Nat) (entry : ε) :
    (Nat → ε) × Nat :=
  (Function.update state.1 (writeSlot state.2) entry, state.2 + 1)

/-- The slots after whole entries were stored one after the other. -/
def replay {ε : Type v} (writeSlot : Nat → Nat) (slots : Nat → ε) (hist : List ε) : Nat → ε :=
  (hist.foldl (storeEntry writeSlot) (slots, 0)).1

/-- The slots are those of a ring of `n`, used in turn from slot `off` on. -/
structure Accesses (n off : Nat) (writeSlot readSlot : Nat → Nat) : Prop where
  write : ∀ index, writeSlot index = (index + off) % n
  read : ∀ index, 1 ≤ index → readSlot index = (index - 1 + off) % n

variable {writeSlot readSlot : Nat → Nat} {n off : Nat}

section Replay

variable {ε : Type v}

theorem foldl_storeEntry_snd (slots : Nat → ε) (hist : List ε) :
    (hist.foldl (storeEntry writeSlot) (slots, 0)).2 = hist.length := by
  induction hist using List.reverseRecOn with
  | nil => rfl
  | append_singleton hist entry ih =>
      rw [List.foldl_append, List.foldl_cons, List.foldl_nil, storeEntry, ih, List.length_append,
        List.length_singleton]

theorem replay_concat (slots : Nat → ε) (hist : List ε) (entry : ε) :
    replay writeSlot slots (hist ++ [entry]) =
      Function.update (replay writeSlot slots hist) (writeSlot hist.length) entry := by
  rw [replay, List.foldl_append, List.foldl_cons, List.foldl_nil, storeEntry,
    foldl_storeEntry_snd]
  rfl

end Replay

variable {slots₀ : Nat → ι → β} {hist : List (ι → β)}

/-! ## The invariant -/

/-- Between increments the memory differs from the one after whole stores only in the slot
being written, and there only by words of the entry being written. A copy has the words of
the entry that was newest when it began, as long as the writer is not at its slot. -/
structure Invariant (n off : Nat) (writeSlot : Nat → Nat) (slots₀ : Nat → ι → β)
    (hist : List (ι → β)) (s : State ι β) : Prop where
  index : s.index = hist.length
  others : ∀ slot, slot ≠ writeSlot s.index → s.slots slot = replay writeSlot slots₀ hist slot
  idle : s.writer = none → s.slots = replay writeSlot slots₀ hist
  words : ∀ w, s.writer = some w → ∀ word ∈ w.stored,
    s.slots (writeSlot s.index) word = w.data word
  recent : SlotRing.Holds n off s.slots hist (s.index + 1 - n)
  begun : ∀ r, s.reader = some r → 1 ≤ r.index ∧ r.index ≤ s.index
  intact : ∀ r, s.reader = some r → s.index + 2 ≤ r.index + n →
    ∀ word ∈ r.copied, ∀ newest : r.index - 1 < hist.length,
      r.copy word = hist[r.index - 1] word

/-- The memory at the beginning: nothing was stored and nobody is active. -/
def State.initial (slots : Nat → ι → β) : State ι β := ⟨slots, 0, none, none⟩

omit [DecidableEq ι] in
theorem invariant_initial : Invariant n off writeSlot slots₀ [] (State.initial slots₀) := by
  refine ⟨rfl, fun _ _ => rfl, fun _ => rfl, ?_, SlotRing.Holds.nil, ?_, ?_⟩
  · intro w storing
    cases storing
  · intro r copying
    cases copying
  · intro r copying
    cases copying

variable {s t : State ι β} {event : Option (ι → β)}

/-- The writer stores a word of its entry. -/
theorem Invariant.storeWord (h : Invariant n off writeSlot slots₀ hist s)
    (accesses : Accesses n off writeSlot readSlot) {w : Storing ι β} (storing : s.writer = some w)
    (word : ι) :
    Invariant n off writeSlot slots₀ hist { s with
      slots := SlotRing.storeWord s.slots (writeSlot s.index) word (w.data word)
      writer := some { w with stored := insert word w.stored } } := by
  refine ⟨h.index, ?_, ?_, ?_, ?_, h.begun, h.intact⟩
  · intro slot ne
    exact (storeWord_of_ne ne ..).trans (h.others slot ne)
  · intro none
    cases none
  · intro w' storing' word' stored
    cases storing'
    change
      SlotRing.storeWord s.slots (writeSlot s.index) word (w.data word) (writeSlot s.index) word' =
        _
    rw [storeWord_self]
    by_cases same : word' = word
    · subst same
      exact Function.update_self ..
    · rw [Function.update_of_ne same]
      exact h.words w storing word' (stored.resolve_left same)
  · change SlotRing.Holds n off
      (SlotRing.storeWord s.slots (writeSlot s.index) word (w.data word)) _ _
    rw [accesses.write]
    exact h.recent.storeWord h.index.ge (by omega) _ _

omit [DecidableEq ι] in
/-- The writer counts an entry that is stored as a whole. -/
theorem Invariant.increment (h : Invariant n off writeSlot slots₀ hist s)
    (accesses : Accesses n off writeSlot readSlot) {w : Storing ι β} (storing : s.writer = some w)
    (complete : ∀ word, word ∈ w.stored) :
    Invariant n off writeSlot slots₀ (hist ++ [w.data])
      { s with index := s.index + 1, writer := none } := by
  have full : s.slots (writeSlot s.index) = w.data :=
    funext fun word => h.words w storing word (complete word)
  have memory : s.slots = replay writeSlot slots₀ (hist ++ [w.data]) := by
    funext slot
    rw [replay_concat, ← h.index]
    by_cases here : slot = writeSlot s.index
    · subst here
      rw [full, Function.update_self]
    · rw [Function.update_of_ne here, h.others slot here]
  have stored : s.slots ((hist.length + off) % n) = w.data := by
    rw [← h.index, ← accesses.write]
    exact full
  refine ⟨?_, fun slot _ => congrFun memory slot, fun _ => memory, ?_, ?_, ?_, ?_⟩
  · rw [List.length_append, List.length_singleton, h.index]
  · intro w' none
    cases none
  · apply (h.recent.extend stored).mono
    change s.index + 1 - n ≤ s.index + 1 + 1 - n
    omega
  · intro r copying
    obtain ⟨pos, before⟩ := h.begun r copying
    exact ⟨pos, Nat.le_succ_of_le before⟩
  · intro r copying recent word copied newest
    obtain ⟨pos, before⟩ := h.begun r copying
    have inside : r.index - 1 < hist.length := by
      rw [← h.index]
      omega
    rw [List.getElem_append_left inside]
    exact h.intact r copying (by dsimp only at recent; omega) word copied inside

/-- The reader copies a word, of its own entry as long as the writer is not at its slot. -/
theorem Invariant.copyWord (h : Invariant n off writeSlot slots₀ hist s)
    (accesses : Accesses n off writeSlot readSlot) {r : Copying ι β} (copying : s.reader = some r)
    (word : ι) :
    Invariant n off writeSlot slots₀ hist { s with reader := some { r with
      copied := insert word r.copied
      copy := Function.update r.copy word (s.slots (readSlot r.index) word) } } := by
  obtain ⟨pos, before⟩ := h.begun r copying
  refine ⟨h.index, h.others, h.idle, h.words, h.recent, ?_, ?_⟩
  · intro r' copying'
    cases copying'
    exact ⟨pos, before⟩
  · intro r' copying' recent word' copied newest
    cases copying'
    change Function.update r.copy word (s.slots (readSlot r.index) word) word' = _
    by_cases same : word' = word
    · subst same
      dsimp only at recent
      rw [Function.update_self, accesses.read r.index pos,
        h.recent (r.index - 1) newest (by omega)]
    · rw [Function.update_of_ne same]
      exact h.intact r copying recent word' (copied.resolve_left same) newest

/-- Each step keeps the invariant, with the entry it completes added to the history. -/
theorem Invariant.step (h : Invariant n off writeSlot slots₀ hist s)
    (accesses : Accesses n off writeSlot readSlot) (taken : Step writeSlot readSlot s event t) :
    Invariant n off writeSlot slots₀ (hist ++ event.toList) t := by
  cases taken with
  | start idle data =>
      rw [Option.toList_none, List.append_nil]
      refine ⟨h.index, h.others, ?_, ?_, h.recent, h.begun, h.intact⟩
      · intro none
        cases none
      · intro w storing word stored
        cases storing
        cases stored
  | storeWord storing word => simpa using h.storeWord accesses storing word
  | increment storing complete => exact h.increment accesses storing complete
  | readIndex idle pos copy =>
      rw [Option.toList_none, List.append_nil]
      refine ⟨h.index, h.others, h.idle, h.words, h.recent, ?_, ?_⟩
      · intro r copying
        cases copying
        exact ⟨pos, Nat.le_refl _⟩
      · intro r copying _ word copied
        cases copying
        cases copied
  | copyWord copying word => simpa using h.copyWord accesses copying word
  | finish copying =>
      rw [Option.toList_none, List.append_nil]
      refine ⟨h.index, h.others, h.idle, h.words, h.recent, ?_, ?_⟩
      · intro r none
        cases none
      · intro r none
        cases none

/-- The invariant in every reachable state. -/
theorem Invariant.run (accesses : Accesses n off writeSlot readSlot)
    {events : List (Option (ι → β))}
    (run : Run (Step writeSlot readSlot) (State.initial slots₀) events s) :
    Invariant n off writeSlot slots₀ (entries events) s := by
  refine run.invariant (I := fun events s => Invariant n off writeSlot slots₀ (entries events) s)
    invariant_initial ?_
  intro events s event t before taken
  have concat : entries (events ++ [event]) = entries events ++ event.toList := by
    cases event <;> simp [entries]
  rw [concat]
  exact before.step accesses taken

omit [DecidableEq ι] in
/-- A finished copy of entry `k` is intact if the counter is still at most `k + n - 2`. -/
theorem Invariant.copy_eq (h : Invariant n off writeSlot slots₀ hist s) {r : Copying ι β}
    (copying : s.reader = some r) (complete : ∀ word, word ∈ r.copied)
    (recent : s.index + 2 ≤ r.index + n) : hist[r.index - 1]? = some r.copy := by
  obtain ⟨pos, before⟩ := h.begun r copying
  have newest : r.index - 1 < hist.length := by
    rw [← h.index]
    omega
  rw [List.getElem?_eq_getElem newest, Option.some.injEq]
  exact (funext fun word => h.intact r copying recent word (complete word) newest).symm

end SlotPublication
