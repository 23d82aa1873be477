import RazorCrypto.Foundation.SlotPublication
import RazorCrypto.Shm.Plus.Refinement
import RazorCrypto.Shm.Tick.Record

/-!
# Reading a record while it is written

`on_rtn_data` stores an update word by word and then increments `current_index`; a reader
computes a slot from the `current_index` it read and copies the slot word by word. Both
stores are instances of publication through slots: only the formulas for the slots differ,
and they are those of the sequential models. Between two updates the memory is the one that
these models have after the same updates.
-/

universe u v

namespace RazorCrypto.Shm

open SlotPublication Transition

/-- A record and the function by which a reader finds the slot of the newest update. -/
inductive Reading (α : Type u)
  | plusGetCurMd (record : MdHeadPlus α) (blockNum : Nat)
  | plusGetCur (record : MdHeadPlus α) (blockNum : Nat) (labelled : record.bufferLen = blockNum)
  | tickGetCurMd (record : MdHead α)
  | tickMemberGetCurMd (record : MdHead α)

namespace Reading

variable {α : Type u}

/-- The number of slots. -/
def blockNum : Reading α → Nat
  | plusGetCurMd _ blockNum | plusGetCur _ blockNum _ => blockNum
  | tickGetCurMd _ | tickMemberGetCurMd _ => 3

/-- The first slot in use: the newer store begins with slot 0, the older one with slot 1. -/
def off : Reading α → Nat
  | plusGetCurMd _ _ | plusGetCur _ _ _ => 0
  | tickGetCurMd _ | tickMemberGetCurMd _ => 1

/-- The content of the slots at the beginning. -/
def slots : Reading α → Nat → α
  | plusGetCurMd record _ | plusGetCur record _ _ => record.dat
  | tickGetCurMd record | tickMemberGetCurMd record => record.dat

/-- The slot that `on_rtn_data` writes when `current_index` is `index`. -/
def writeSlot : Reading α → Nat → Nat
  | plusGetCurMd record blockNum, index | plusGetCur record blockNum _, index =>
      (record.atIndex index).nextOffset blockNum
  | tickGetCurMd record, index | tickMemberGetCurMd record, index =>
      (record.atIndex index).nextOffset

/-- The slot that the reader takes for the `current_index` it read. -/
def readSlot : Reading α → Nat → Nat
  | plusGetCurMd record blockNum, index => (record.atIndex index).curOffset blockNum
  | plusGetCur record _ _, index => (record.atIndex index).getCur.getD 0
  | tickGetCurMd record, index => (record.atIndex index).curOffset
  | tickMemberGetCurMd record, index => (record.atIndex index).memberOffset

/-- The slots after the updates, by the sequential model of the store. -/
def storedSlots : Reading α → List α → Nat → α
  | plusGetCurMd record blockNum, updates | plusGetCur record blockNum _, updates =>
      (updates.foldl (MdHeadPlus.store · blockNum) (record.atIndex 0)).dat
  | tickGetCurMd record, updates | tickMemberGetCurMd record, updates =>
      (updates.foldl MdHead.store (record.atIndex 0)).dat

/-- Writer and reader use the slots of one ring. -/
theorem accesses (reading : Reading α) :
    Accesses reading.blockNum reading.off reading.writeSlot reading.readSlot := by
  cases reading with
  | plusGetCurMd record blockNum =>
      refine ⟨fun index => MdHeadPlus.nextOffset_eq rfl, fun index pos => ?_⟩
      exact MdHeadPlus.curOffset_eq (r := record.atIndex index) rfl pos
  | plusGetCur record blockNum labelled =>
      refine ⟨fun index => MdHeadPlus.nextOffset_eq rfl, fun index pos => ?_⟩
      have slot := MdHeadPlus.getCur_eq (r := record.atIndex index) rfl pos labelled
      change (record.atIndex index).getCur.getD 0 = _
      rw [slot, Option.getD_some]
      exact MdHeadPlus.curOffset_eq rfl pos
  | tickGetCurMd record =>
      refine ⟨fun index => MdHead.nextOffset_eq rfl, fun index pos => ?_⟩
      change _ = (index - 1 + 1) % 3
      rw [Nat.sub_add_cancel pos]
      exact MdHead.curOffset_eq rfl
  | tickMemberGetCurMd record =>
      refine ⟨fun index => MdHead.nextOffset_eq rfl, fun index pos => ?_⟩
      change _ = (index - 1 + 1) % 3
      rw [Nat.sub_add_cancel pos]
      exact MdHead.memberOffset_eq (r := record.atIndex index) rfl

end Reading

theorem MdHeadPlus.foldl_store {α : Type u} (record : MdHeadPlus α) (blockNum : Int)
    (updates : List α) :
    updates.foldl (MdHeadPlus.store · blockNum) (record.atIndex 0) =
      { record.atIndex updates.length with
        dat := replay (fun index => (record.atIndex index).nextOffset blockNum) record.dat
          updates } := by
  induction updates using List.reverseRecOn with
  | nil => rfl
  | append_singleton updates newData ih =>
      rw [List.foldl_append, ih, replay_concat, List.length_append]
      rfl

theorem MdHead.foldl_store {α : Type u} (record : MdHead α) (updates : List α) :
    updates.foldl MdHead.store (record.atIndex 0) =
      { record.atIndex updates.length with
        dat := replay (fun index => (record.atIndex index).nextOffset) record.dat updates } := by
  induction updates using List.reverseRecOn with
  | nil => rfl
  | append_singleton updates newData ih =>
      rw [List.foldl_append, ih, replay_concat, List.length_append]
      rfl

/-- Storing whole updates in turn is what the sequential models do. -/
theorem Reading.storedSlots_eq {α : Type u} (reading : Reading α) (updates : List α) :
    reading.storedSlots updates = replay reading.writeSlot reading.slots updates := by
  cases reading with
  | plusGetCurMd record blockNum =>
      exact congrArg MdHeadPlus.dat (record.foldl_store blockNum updates)
  | plusGetCur record blockNum =>
      exact congrArg MdHeadPlus.dat (record.foldl_store blockNum updates)
  | tickGetCurMd record => exact congrArg MdHead.dat (record.foldl_store updates)
  | tickMemberGetCurMd record => exact congrArg MdHead.dat (record.foldl_store updates)

/-! ## Runs -/

variable {ι : Type u} {β : Type v} [DecidableEq ι] {reading : Reading (ι → β)}
  {events : List (Option (ι → β))} {s : State ι β}

/-- While no update is being stored, the memory is that of the sequential model. -/
theorem idle_slots
    (run : Run (Step reading.writeSlot reading.readSlot) (State.initial reading.slots) events s)
    (idle : s.writer = none) : s.slots = reading.storedSlots (entries events) := by
  rw [reading.storedSlots_eq]
  exact (Invariant.run reading.accesses run).idle idle

/-- A copy of the update `k` is intact if `current_index` is still at most
`k + MD_BLOCK_NUM - 2` when it is finished. -/
theorem untorn_copy
    (run : Run (Step reading.writeSlot reading.readSlot) (State.initial reading.slots) events s)
    {r : Copying ι β} (copying : s.reader = some r) (complete : ∀ word, word ∈ r.copied)
    (blocks : 2 ≤ reading.blockNum) (recent : s.index ≤ r.index + reading.blockNum - 2) :
    (entries events)[r.index - 1]? = some r.copy :=
  (Invariant.run reading.accesses run).copy_eq copying complete (by omega)

/-- A record of two slots of two words each. -/
def twoSlots : Reading (Bool → Nat) := .plusGetCurMd ⟨0, [], 2, fun _ _ => 0⟩ 2

/-- One update of both words, then a copy of it. -/
theorem untorn_copy_two :
    (entries [none, none, none, some fun word : Bool => cond word 1 2, none, none,
      none])[1 - 1]? = some fun word : Bool => cond word 1 2 := by
  have both : ∀ word : Bool, word ∈ insert true (insert false (∅ : Set Bool)) := by
    rintro (_ | _) <;> simp
  have idle : Run (Step twoSlots.writeSlot twoSlots.readSlot) (State.initial twoSlots.slots)
      [] (State.initial twoSlots.slots) := .refl
  have stored := ((idle.snoc (.start rfl fun word => cond word 1 2)).snoc
    (.storeWord rfl false)).snoc (.storeWord rfl true)
  have copied := (((stored.snoc (.increment rfl both)).snoc
    (.readIndex rfl (Nat.le_refl 1) fun _ => 0)).snoc (.copyWord rfl false)).snoc
    (.copyWord rfl true)
  exact (untorn_copy copied rfl both (Nat.le_refl 2) (Nat.le_refl 1)).trans
    (congrArg some (funext fun word => by cases word <;> rfl))

end RazorCrypto.Shm
