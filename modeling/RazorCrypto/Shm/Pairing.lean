import RazorCrypto.Shm.Untorn

/-!
# The number and the slot of an update

`get_cur_md` with an update number and `get_active_md` read `current_index` twice: first for
the number, then for the slot. An update that is published in between gives the reader the
number of one update and the slot of a later one. The two name the same slot exactly if
whole laps of the ring were published between the two reads.
-/

universe u

namespace RazorCrypto.Shm

open Transition

variable {α : Type u}

/-- `shm_md_plus::get_cur_md` with an update number, if the record is `first` at the first
read of `current_index` and `second` at the second one: the number and the slot. -/
def MdHeadPlus.getCurMdNum (first second : MdHeadPlus α) (blockNum : Int) : Nat × Nat :=
  (first.currentIndex.toNat, second.curOffset blockNum)

/-- `shm_md_plus::get_active_md`, whose second read is the one of `get_cur_md`. -/
def MdHeadPlus.getActiveMd (first second : MdHeadPlus α) (blockNum : Int) : Nat × Nat :=
  (first.currentIndex.toNat, second.curOffset blockNum)

/-- `shm_md_tick::get_cur_md` with an update number. -/
def MdHead.getCurMdNum (first second : MdHead α) : Nat × Nat :=
  (first.currentIndex.toNat, second.curOffset)

/-- `shm_md_tick::get_active_md`. -/
def MdHead.getActiveMd (first second : MdHead α) : Nat × Nat :=
  (first.currentIndex.toNat, second.curOffset)

/-- The record of a registered instrument and a function that returns a number with a slot. -/
inductive PairedReading (α : Type u)
  | plusGetCurMd (record : MdHeadPlus α) (blockNum : Nat)
  | plusGetActiveMd (record : MdHeadPlus α) (blockNum : Nat)
  | tickGetCurMd (record : MdHead α)
  | tickGetActiveMd (record : MdHead α)

namespace PairedReading

/-- What the writer does to the record, as for the functions that return a slot alone. -/
def single : PairedReading α → Reading α
  | plusGetCurMd record blockNum | plusGetActiveMd record blockNum =>
      .plusGetCurMd record blockNum
  | tickGetCurMd record | tickGetActiveMd record => .tickGetCurMd record

/-- The number and the slot for the two values of `current_index` that are read. -/
def returned : PairedReading α → Nat → Nat → Nat × Nat
  | plusGetCurMd record blockNum, first, second =>
      (record.atIndex first).getCurMdNum (record.atIndex second) blockNum
  | plusGetActiveMd record blockNum, first, second =>
      (record.atIndex first).getActiveMd (record.atIndex second) blockNum
  | tickGetCurMd record, first, second =>
      (record.atIndex first).getCurMdNum (record.atIndex second)
  | tickGetActiveMd record, first, second =>
      (record.atIndex first).getActiveMd (record.atIndex second)

/-- The number comes from the first read and the slot from the second one. -/
theorem returned_eq (reading : PairedReading α) (first second : Nat) :
    reading.returned first second = (first, reading.single.readSlot second) := by
  cases reading <;> rfl

/-- `current_index`, the slot of the update being stored and the value that the reader's
first read found. -/
structure State where
  index : Nat
  writer : Option Nat
  reader : Option Nat

/-- What is seen of a step: an update published from its slot, or what the reader returns. -/
inductive Event
  | silent
  | published (slot : Nat)
  | returned (number slot : Nat)

/-- One step of `on_rtn_data` or of the reader. Each access of `current_index` is a step of
its own. -/
inductive Step (reading : PairedReading α) : State → Event → State → Prop
  | store {s} (idle : s.writer = none) :
      Step reading s .silent { s with writer := some (reading.single.writeSlot s.index) }
  | increment {s slot} (stored : s.writer = some slot) :
      Step reading s (.published slot) { s with index := s.index + 1, writer := none }
  | readNumber {s} (idle : s.reader = none) :
      Step reading s .silent { s with reader := some s.index }
  | readOffset {s first} (numbered : s.reader = some first) :
      Step reading s (.returned (reading.returned first s.index).1
        (reading.returned first s.index).2) { s with reader := none }

/-- A registered record without updates. -/
def State.initial : State := ⟨0, none, none⟩

/-- The slots of the updates published in a run: entry `k` is that of update `k + 1`. -/
def published (events : List Event) : List Nat :=
  events.filterMap fun
    | .published slot => some slot
    | _ => none

variable {reading : PairedReading α} {s t : State} {events : List Event} {e : Event}

/-- The published updates lie in the slots that the writer took for them in turn. -/
structure Invariant (reading : PairedReading α) (slots : List Nat) (s : State) : Prop where
  index : s.index = slots.length
  slots : ∀ k (inside : k < slots.length), slots[k] = reading.single.writeSlot k
  writer : ∀ slot, s.writer = some slot → slot = reading.single.writeSlot s.index
  reader : ∀ first, s.reader = some first → first ≤ s.index

theorem invariant_initial : Invariant reading [] State.initial := by
  refine ⟨rfl, ?_, ?_, ?_⟩
  · intro k inside
    cases inside
  · intro slot none
    cases none
  · intro first none
    cases none

/-- A step that publishes no update. -/
theorem Invariant.of_silent {slots : List Nat} (h : Invariant reading slots t)
    (silent : published [e] = []) : Invariant reading (slots ++ published [e]) t := by
  rw [silent, List.append_nil]
  exact h

theorem Invariant.step {slots : List Nat} (h : Invariant reading slots s)
    (taken : Step reading s e t) : Invariant reading (slots ++ published [e]) t := by
  cases taken with
  | store idle =>
      refine Invariant.of_silent ⟨h.index, h.slots, ?_, h.reader⟩ rfl
      rintro slot ⟨⟩
      rfl
  | @increment slot stored =>
      change Invariant reading (slots ++ [slot]) _
      refine ⟨?_, ?_, ?_, ?_⟩
      · rw [List.length_append, List.length_singleton, h.index]
      · intro k inside
        rw [List.getElem_append]
        split
        · exact h.slots k _
        · next last =>
            have newest : k = s.index := by
              rw [List.length_append, List.length_singleton] at inside
              rw [h.index]
              omega
            rw [List.getElem_singleton, newest]
            exact h.writer slot stored
      · intro slot none
        cases none
      · intro first numbered
        exact (h.reader first numbered).trans (Nat.le_succ _)
  | readNumber idle =>
      refine Invariant.of_silent ⟨h.index, h.slots, h.writer, ?_⟩ rfl
      rintro first ⟨⟩
      exact Nat.le_refl _
  | readOffset numbered =>
      refine Invariant.of_silent ⟨h.index, h.slots, h.writer, ?_⟩ rfl
      intro first none
      cases none

theorem Invariant.run (run : Run (Step reading) State.initial events s) :
    Invariant reading (published events) s := by
  refine run.invariant (I := fun events s => Invariant reading (published events) s)
    invariant_initial ?_
  intro events s e t before taken
  rw [published, List.filterMap_append]
  exact before.step taken

/-- Two updates lie in one slot if whole laps of the ring are between them. -/
theorem writeSlot_eq_iff {i j : Nat} (le : i ≤ j) :
    reading.single.writeSlot i = reading.single.writeSlot j ↔
      reading.single.blockNum ∣ j - i := by
  rw [reading.single.accesses.write, reading.single.accesses.write, ← Nat.modEq_iff_dvd' le]
  exact ⟨Nat.ModEq.add_right_cancel' _, Nat.ModEq.add_right _⟩

/-- The slot returned with the number `u` is the one of update `u` exactly if the number of
updates published between the two reads is a multiple of the block length. -/
theorem returned_belongs_iff (run : Run (Step reading) State.initial events s) {first : Nat}
    (numbered : s.reader = some first) {u slot : Nat} (update : 1 ≤ u)
    (taken : Step reading s (.returned u slot) t) :
    (published events)[u - 1]? = some slot ↔ reading.single.blockNum ∣ s.index - first := by
  have kept := Invariant.run run
  cases taken with
  | @readOffset first' numbered' =>
      obtain rfl : first' = first := Option.some.inj (numbered'.symm.trans numbered)
      have before := kept.reader first' numbered
      have accesses := reading.single.accesses
      rw [reading.returned_eq] at update ⊢
      dsimp only at update ⊢
      have inside : first' - 1 < (published events).length := by
        rw [← kept.index]
        omega
      -- the second read finds the slot of the update published last
      have newest : reading.single.readSlot s.index = reading.single.writeSlot (s.index - 1) := by
        rw [accesses.read _ (by omega), accesses.write]
      have laps : s.index - 1 - (first' - 1) = s.index - first' := by omega
      rw [List.getElem?_eq_getElem inside, kept.slots _ inside, newest, Option.some.injEq,
        writeSlot_eq_iff (by omega), laps]

/-- A record of two slots. -/
def ofTwo : PairedReading Nat := .plusGetCurMd ⟨0, [], 2, fun _ => 0⟩ 2

/-- An update is published and the first read made. -/
theorem run_ofTwo : Run (Step ofTwo) State.initial [.silent, .published 0, .silent]
    ⟨1, none, some 1⟩ :=
  ((Run.single (.store rfl)).snoc (.increment rfl)).snoc (.readNumber rfl)

theorem returned_belongs_iff_two : (published [.silent, .published 0, .silent])[1 - 1]? = some 0 :=
  (returned_belongs_iff run_ofTwo rfl (Nat.le_refl 1) (.readOffset rfl)).mpr ⟨0, rfl⟩

/-- A second update between the two reads: the reader returns the number of the first
update with the slot of the second. -/
theorem returned_older_number : ∃ (events : List Event) (s t : State),
    Run (Step ofTwo) State.initial events s ∧ Step ofTwo s (.returned 1 1) t ∧
      (published events)[1 - 1]? = some 0 :=
  ⟨_, _, _, (run_ofTwo.snoc (.store rfl)).snoc (.increment rfl), .readOffset rfl, rfl⟩

end PairedReading
end RazorCrypto.Shm
