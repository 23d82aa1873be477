import RazorCrypto.Foundation.Transition
import RazorCrypto.Shm.Plus.Reader
import RazorCrypto.Shm.Plus.Settled

/-!
# A reader that attaches while the writer works

The writer executes the stores of its operations one at a time, and `get_shm` of another
process reads the shared fields one at a time, in any interleaving. The first operation of
the writer is `create_shm_ptr` from the moment the file is visible, followed by an
initialisation. The private fields of the writer are updated when an operation begins, since
nobody else sees them.

Nothing tells a reader that an initialisation is over. `OrderlyStep` keeps the reader away
from initialisations and from the label that a registration is about to fill in. A reader
that nothing disturbs does what `get_shm` does in one piece.
-/

universe u

namespace RazorCrypto.Shm.ShmMdPlus

open MachineInt Transition

/-- Where a reader is in `get_shm`: after it took the block length, in the scan for the end
marker, in `load_instruments_addresses`, or done. -/
inductive Reader
  | idle
  | scanning (blockNum : Int) (next : Nat)
  | loading (blockNum : Int) (next index : Nat) (map : AddressMap)
  | attached (blockNum : Int) (map : AddressMap)

/-- A writer with the stores it has yet to execute, and a reader. `filled` says which labels
are filled in. -/
structure Attaching (α : Type u) where
  writer : ShmMdPlus α
  todo : List (Write α)
  initialising : Bool
  filled : Nat → Bool
  reader : Reader

/-- The writer begins an operation or executes a store; the reader reads a field, or enters a
record in its address map. -/
inductive AttachEvent (α : Type u)
  | began (op : Op α)
  | wrote
  | read
  | mapped (index : Nat) (filledIn : Bool)

variable {α : Type u} [MarketData α]

namespace Attaching

omit [MarketData α] in
/-- A reader with block length `blockNum` finds record `index` of the writer at position
`index`. With another block length only the first record is where it expects it. -/
def Meets (st : Attaching α) (blockNum : Int) (index : Nat) : Prop :=
  index = 0 ∨ blockNum = st.writer.mdBlockNum

instance (st : Attaching α) (blockNum : Int) (index : Nat) : Decidable (st.Meets blockNum index) :=
  inferInstanceAs (Decidable (_ ∨ _))

/-- What the reader sees at position `index`: anything, if that is not the start of a
record. -/
def Sees (st : Attaching α) (blockNum : Int) (index : Nat) (r : MdHeadPlus α) : Prop :=
  st.Meets blockNum index → r = st.writer.shm.record index

/-- The writer begins `op`. -/
def beginning (st : Attaching α) (op : Op α) : Attaching α :=
  { st with
    writer := { st.writer.apply op with shm := st.writer.shm }
    todo := st.writer.writesOf op
    initialising := op.instruments?.isSome }

/-- The writer has executed the stores `ws`, with `rest` to follow. -/
def executed (st : Attaching α) (ws rest : List (Write α)) : Attaching α :=
  { st with
    writer := { st.writer with shm := st.writer.shm.writes ws }
    todo := rest
    filled := fillAll st.filled ws }

/-- The writer has executed all its stores. -/
def completed (st : Attaching α) : Attaching α := st.executed st.todo []

/-- The reader has moved to another place. -/
def reading (st : Attaching α) (reader : Reader) : Attaching α := { st with reader := reader }

/-- One step of the writer or of the reader. The remainder in `get_cur_md` is not defined for
a block length of zero. -/
inductive Step : Attaching α → AttachEvent α → Attaching α → Prop
  | begin {st : Attaching α} {op} (free : st.todo = []) : Step st (.began op) (st.beginning op)
  | write {st : Attaching α} {w ws} (pending : st.todo = w :: ws) :
      Step st .wrote (st.executed [w] ws)
  | readBuffNum {st : Attaching α} (position : st.reader = .idle) :
      Step st .read (st.reading (.scanning (asInt32 st.writer.shm.head.mdBuffNum) 0))
  | pass {st : Attaching α} {blockNum next} {r : MdHeadPlus α}
      (position : st.reader = .scanning blockNum next) (sees : st.Sees blockNum next r)
      (live : 0 ≤ r.currentIndex) :
      Step st .read (st.reading (.scanning blockNum (next + 1)))
  | stop {st : Attaching α} {blockNum next} {r : MdHeadPlus α}
      (position : st.reader = .scanning blockNum next) (sees : st.Sees blockNum next r)
      (marker : r.currentIndex < 0) : Step st .read (st.reading (.loading blockNum next 0 ∅))
  | load {st : Attaching α} {blockNum next index map} {r : MdHeadPlus α}
      (position : st.reader = .loading blockNum next index map) (inside : index < next)
      (divides : blockNum ≠ 0) (sees : st.Sees blockNum index r) :
      Step st (.mapped index (decide (st.Meets blockNum index) && st.filled index))
        (st.reading (.loading blockNum next (index + 1) (map.insert (comHash r.name) index)))
  | finish {st : Attaching α} {blockNum next map}
      (position : st.reader = .loading blockNum next next map) :
      Step st .read (st.reading (.attached blockNum map))

/-- The file is visible: `create_shm_ptr` has yet to clear it, and the initialisation `first`
follows. -/
def creating (page : Region α) (M N : Nat) (first : Op α) : Attaching α :=
  { writer := { (created page M N).apply first with shm := page }
    todo := createWrites page M N ++ (created page M N).writesOf first
    initialising := true
    filled := fun _ => false
    reader := .idle }

/-! ## The order in which attaching works -/

/-- No initialisation is under way. -/
def Built (st : Attaching α) : Prop := st.initialising = true → st.todo = []

/-- The reader has not started, or is done. -/
def Outside (st : Attaching α) : Prop :=
  st.reader = .idle ∨ ∃ blockNum map, st.reader = .attached blockNum map

/-- The writer keeps to what its operations permit and begins no initialisation while the
reader is in `get_shm`. The reader does not step during an initialisation, and does not load
a label that a registration is about to fill in. -/
def Orderly (st : Attaching α) : AttachEvent α → Prop
  | .began op => st.writer.Permitted op ∧ (op.instruments?.isSome = true → st.Outside)
  | .wrote => True
  | .read => st.Built
  | .mapped index _ => st.Built ∧ ∀ name, .fillInstrumentId index name ∉ st.todo

/-- A step in this order. -/
def OrderlyStep (st : Attaching α) (e : AttachEvent α) (st' : Attaching α) : Prop :=
  st.Orderly e ∧ Step st e st'

/-- What the reader of a store with block length `N` promises. It has mapped filled-in records
only, never divides by zero in `get_cur_md`, and once attached it has the block length and the
entries that it made. -/
structure Accurate (N : Nat) (es : List (AttachEvent α)) (st : Attaching α) : Prop where
  filledIn : ∀ i filledIn, AttachEvent.mapped i filledIn ∈ es → filledIn = true
  divides : ∀ blockNum next index map, st.reader = .loading blockNum next index map →
    blockNum ≠ 0
  blockNum : ∀ blockNum map, st.reader = .attached blockNum map → blockNum = N ∧ blockNum ≠ 0
  map : ∀ blockNum map, st.reader = .attached blockNum map →
    ∀ key i, map.lookup key = some i → AttachEvent.mapped i true ∈ es

variable {st : Attaching α}

/-- The writer executes the first stores of its list. -/
theorem run_executed (st : Attaching α) {ws rest : List (Write α)}
    (pending : st.todo = ws ++ rest) :
    Run OrderlyStep st (List.replicate ws.length .wrote) (st.executed ws rest) := by
  induction ws generalizing st with
  | nil =>
      have same : st.executed [] rest = st := by
        rw [← show st.todo = rest from pending]
        rfl
      rw [same]
      exact .refl
  | cons w ws ih => exact .head ⟨trivial, .write pending⟩ (ih (st.executed [w] (ws ++ rest)) rfl)

theorem run_completed (st : Attaching α) :
    Run OrderlyStep st (List.replicate st.todo.length .wrote) st.completed :=
  run_executed st (List.append_nil _).symm

/-! ## A reader without a writer -/

variable {blockNum : Int} {next index fuel : Nat} {map : AddressMap}

omit [MarketData α] in
theorem orderly_read (free : st.todo = []) (reader : Reader) :
    (st.reading reader).Orderly .read :=
  fun _ => free

omit [MarketData α] in
theorem orderly_mapped (free : st.todo = []) (reader : Reader) (filledIn : Bool) :
    (st.reading reader).Orderly (.mapped index filledIn) := by
  refine ⟨fun _ => free, fun name listed => ?_⟩
  change _ ∈ st.todo at listed
  rw [free] at listed
  cases listed

theorem step_readBuffNum (idle : st.reader = .idle)
    (buffNum : asInt32 st.writer.shm.head.mdBuffNum = blockNum) :
    Step st .read (st.reading (.scanning blockNum 0)) :=
  buffNum ▸ .readBuffNum idle

theorem step_pass (live : 0 ≤ (st.writer.shm.record next).currentIndex) :
    Step (st.reading (.scanning blockNum next)) .read
      (st.reading (.scanning blockNum (next + 1))) :=
  .pass rfl (fun _ => rfl) live

theorem step_stop (marker : (st.writer.shm.record next).currentIndex < 0) :
    Step (st.reading (.scanning blockNum next)) .read (st.reading (.loading blockNum next 0 ∅)) :=
  .stop rfl (fun _ => rfl) marker

/-- The scan of a reader that nothing disturbs is that of `get_shm`. -/
theorem run_scan (blockNum : Int) (free : st.todo = [])
    (stops : scanEnd st.writer.shm.record fuel index = some next) :
    ∃ es, Run OrderlyStep (st.reading (.scanning blockNum index)) es
      (st.reading (.loading blockNum next 0 ∅)) := by
  induction fuel generalizing index with
  | zero => cases stops
  | succ fuel ih =>
      rw [scanEnd] at stops
      split at stops
      · next live =>
          obtain ⟨es, rest⟩ := ih stops
          exact ⟨_, .head ⟨orderly_read free _, step_pass live⟩ rest⟩
      · next negative =>
          cases stops
          exact ⟨_, .single ⟨orderly_read free _, step_stop (by omega)⟩⟩

theorem step_load (meets : st.Meets blockNum index) (inside : index < next)
    (divides : blockNum ≠ 0) :
    Step (st.reading (.loading blockNum next index map)) (.mapped index (st.filled index))
      (st.reading (.loading blockNum next (index + 1)
        (map.insert (comHash (st.writer.shm.record index).name) index))) := by
  have flag : (decide (st.Meets blockNum index) && st.filled index) = st.filled index := by
    simp [meets]
  rw [← flag]
  exact .load rfl inside divides fun _ => rfl

/-- So is its rebuilt address map. -/
theorem run_load (free : st.todo = []) (meets : blockNum = st.writer.mdBlockNum)
    (divides : blockNum ≠ 0) (inside : index ≤ next) :
    Run OrderlyStep (st.reading (.loading blockNum next 0 ∅))
      ((List.range index).map fun i => .mapped i (st.filled i))
      (st.reading (.loading blockNum next index ((List.range index).foldl
        (fun map i => map.insert (comHash (st.writer.shm.record i).name) i) ∅))) := by
  induction index with
  | zero => exact .refl
  | succ index ih =>
      rw [List.range_succ, List.map_append, List.foldl_append]
      exact (ih (Nat.le_of_succ_le inside)).snoc
        ⟨orderly_mapped free _ _, step_load (Or.inr meets) inside divides⟩

/-- Together they complete `get_shm`, once the block length is read. -/
theorem run_rest (free : st.todo = []) (meets : blockNum = st.writer.mdBlockNum)
    (divides : blockNum ≠ 0) (stops : scanEnd st.writer.shm.record fuel index = some next) :
    ∃ es, Run OrderlyStep (st.reading (.scanning blockNum index)) es
        (st.reading (.attached blockNum ((List.range next).foldl
          (fun map i => map.insert (comHash (st.writer.shm.record i).name) i) ∅))) ∧
      ∀ i, i < next → .mapped i (st.filled i) ∈ es := by
  obtain ⟨es, scanned⟩ := run_scan blockNum free stops
  have loaded := run_load free meets divides (Nat.le_refl next)
  have closed := loaded.snoc ⟨orderly_read free _, .finish rfl⟩
  refine ⟨_, scanned.trans closed, fun i inside => ?_⟩
  simp [inside]

/-- A reader that nothing disturbs ends with what `get_shm` returns. -/
theorem run_getShm (st : Attaching α) (free : st.todo = []) (idle : st.reader = .idle)
    (buffNum : asInt32 st.writer.shm.head.mdBuffNum = st.writer.mdBlockNum)
    (divides : st.writer.mdBlockNum ≠ 0) (page : Region α) (shmSize : Nat)
    {reader : ShmMdPlus α} (returned : (new page).getShm st.writer.shm shmSize fuel = some reader) :
    ∃ es, Run OrderlyStep st es
      (st.reading (.attached reader.mdBlockNum reader.mInstrumentsAddress)) := by
  rw [getShm, Option.map_eq_some_iff] at returned
  obtain ⟨next, stops, rfl⟩ := returned
  have opened : OrderlyStep st .read (st.reading (.scanning st.writer.mdBlockNum 0)) :=
    ⟨fun _ => free, step_readBuffNum idle buffNum⟩
  obtain ⟨es, rest, -⟩ := run_rest free rfl divides stops
  simp only [loadInstrumentsAddresses, attach, buffNum]
  exact ⟨_, .head opened rest⟩

end Attaching
end RazorCrypto.Shm.ShmMdPlus
