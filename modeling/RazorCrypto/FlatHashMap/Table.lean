import RazorCrypto.FlatHashMap.Policy
import RazorCrypto.Foundation.RobinHood

/-!
# The hash table

`flat_hash_map` keeps its elements in one array of entries without links. An entry holds
its element with the distance from the index its hash asks for; `sherwood_v3_table` moves
elements that are near to their index on in favour of elements that are far from theirs,
and grows when an element would get too far away. The array has `max_lookups` entries more
than there are indices, and the last of them marks its end.

A table is generic in its keys, values and hash function. What the allocator grants is a
parameter: `allocate n` says whether there is room for `n` entries, and where there is none the
call ends with `std::bad_alloc`. The failure carries the number of entries that was asked for.
The load factor has its default, one half.
-/

namespace RazorCrypto.FlatHashMap

open RobinHood

/-- What ends a call without a result: no memory, an access behind the array, the value of an
entry that has none, or more growths in each other than the model follows. -/
inductive Failure
  | badAlloc (entries : Nat)
  | pastEnd
  | noValue
  | unfinished
  deriving Repr, DecidableEq

/-- `sherwood_v3_entry`. -/
abbrev Entry (K V : Type) := Slot (K × V)

variable {K V : Type}

namespace Entry

/-- `distance_from_desired`; the last entry has `special_end_value`. -/
def distanceFromDesired : Entry K V → Int
  | .free => -1
  | .filled distance _ => distance
  | .stop => 0

/-- `has_value`, which holds of the last entry as well. -/
def hasValue (entry : Entry K V) : Bool := 0 ≤ entry.distanceFromDesired

/-- `is_empty`. -/
def isEmpty (entry : Entry K V) : Bool := entry.distanceFromDesired < 0

/-- `is_at_desired_position`. -/
def isAtDesiredPosition (entry : Entry K V) : Bool := entry.distanceFromDesired ≤ 0

variable (distance : Nat) (value : K × V)

@[simp] theorem hasValue_free : hasValue (.free : Entry K V) = false := rfl

@[simp] theorem isEmpty_free : isEmpty (.free : Entry K V) = true := rfl

@[simp] theorem isEmpty_stop : isEmpty (.stop : Entry K V) = false := rfl

@[simp] theorem hasValue_filled : hasValue (.filled distance value) = true :=
  decide_eq_true (Int.natCast_nonneg distance)

@[simp] theorem isEmpty_filled : isEmpty (.filled distance value) = false :=
  decide_eq_false (Int.not_lt.mpr (Int.natCast_nonneg distance))

theorem isAtDesiredPosition_filled :
    isAtDesiredPosition (.filled distance value) = true ↔ distance = 0 :=
  decide_eq_true_iff.trans (Int.natCast_nonpos_iff)

end Entry

/-- `empty_default_table`. -/
def emptyDefaultTable : List (Entry K V) := [.free, .free, .free, .stop]

/-- `sherwood_v3_table`. -/
structure Table (K V : Type) where
  entries : List (Entry K V)
  numSlotsMinusOne : Nat
  shift : Nat
  maxLookups : Nat
  numElements : Nat

/-- What `emplace` returns, with the table after it: the place of the element, and whether it
is new. -/
structure Emplaced (K V : Type) where
  table : Table K V
  it : Nat
  inserted : Bool

/-- Where the search for a key stops: at the key, or at the entry it would be put in. -/
inductive Probe
  | found (it : Nat)
  | missing (it distance : Nat)
  deriving Repr, DecidableEq

/-- How the loop of `emplace_new_key` ends: with a place for each element, or with one that
would get too far from its index. -/
inductive Displaced (K V : Type)
  | placed (entries : List (Entry K V))
  | stuck (entries : List (Entry K V)) (toInsert : K × V)

/-- The same in front of one more entry. -/
def Displaced.cons (entry : Entry K V) : Displaced K V → Displaced K V
  | .placed entries => .placed (entry :: entries)
  | .stuck entries toInsert => .stuck (entry :: entries) toInsert

namespace Table

/-- A table before its first element. -/
def new : Table K V := ⟨emptyDefaultTable, 0, 63, minLookups - 1, 0⟩

/-- `bucket_count`. -/
def bucketCount (t : Table K V) : Nat :=
  if t.numSlotsMinusOne = 0 then 0 else t.numSlotsMinusOne + 1

/-- The place `end()` points to. -/
def endIt (t : Table K V) : Nat := t.numSlotsMinusOne + t.maxLookups

/-- `size`. -/
def size (t : Table K V) : Nat := t.numElements

/-- `reset_to_empty_state`. -/
def resetToEmptyState (t : Table K V) : Table K V :=
  { t with
    entries := emptyDefaultTable
    numSlotsMinusOne := 0
    shift := 63
    maxLookups := minLookups - 1 }

/-- `clear`. -/
def clear (t : Table K V) : Table K V :=
  { t with
    entries := (t.entries.take t.endIt).map (fun _ => .free) ++ t.entries.drop t.endIt
    numElements := 0 }

/-! ## Searching -/

section Search

variable [DecidableEq K]

/-- The loop of `find` and `emplace`, from place `it` on. -/
def probe (key : K) : List (Entry K V) → Nat → Nat → Except Failure Probe
  | [], _, _ => .error .pastEnd
  | entry :: rest, it, distance =>
    if (distance : Int) ≤ entry.distanceFromDesired then
      match entry.item? with
      | none => .error .noValue
      | some value =>
        if value.1 = key then .ok (.found it) else probe key rest (it + 1) (distance + 1)
    else .ok (.missing it distance)

variable (hash : K → UInt64)

/-- `find`. -/
def find (t : Table K V) (key : K) : Except Failure Nat := do
  let index := indexForHash t.shift (hash key)
  match ← probe key (t.entries.drop index) index 0 with
  | .found it => pure it
  | .missing _ _ => pure t.endIt

/-- The element an iterator points to. -/
def deref (t : Table K V) (it : Nat) : Except Failure (K × V) :=
  match t.entries[it]? with
  | none => .error .pastEnd
  | some entry =>
    match entry.item? with
    | none => .error .noValue
    | some value => .ok value

/-- `find`, and what it points to if that is not the end. -/
def lookup (t : Table K V) (key : K) : Except Failure (Option V) := do
  let it ← t.find hash key
  if it = t.endIt then pure none
  else
    let value ← t.deref it
    pure (some value.2)

/-- `count`. -/
def count (t : Table K V) (key : K) : Except Failure Nat := do
  let it ← t.find hash key
  pure (if it = t.endIt then 0 else 1)

end Search

/-! ## Iterating -/

/-- The place of the first entry that is not empty, from place `it` on. -/
def skipEmpty : List (Entry K V) → Nat → Except Failure Nat
  | [], _ => .error .pastEnd
  | entry :: rest, it => if entry.isEmpty then skipEmpty rest (it + 1) else .ok it

/-- `begin`. -/
def begin (t : Table K V) : Except Failure Nat := skipEmpty t.entries 0

/-- `operator++` of an iterator. -/
def next (t : Table K V) (it : Nat) : Except Failure Nat :=
  skipEmpty (t.entries.drop (it + 1)) (it + 1)

/-- The elements a loop from an iterator to the end visits, in a number of turns. -/
def visit (t : Table K V) : Nat → Nat → Except Failure (List (K × V))
  | 0, _ => .error .unfinished
  | turns + 1, it =>
    if it = t.endIt then pure []
    else do
      let value ← t.deref it
      let rest ← t.visit turns (← t.next it)
      pure (value :: rest)

/-- The elements a loop over the table visits. -/
def visitAll (t : Table K V) : Except Failure (List (K × V)) := do
  t.visit t.entries.length (← t.begin)

/-! ## Inserting -/

/-- Assignment to `second` through an iterator. -/
def setSecond (t : Table K V) (it : Nat) (value : V) : Table K V :=
  { t with
    entries := t.entries.modify it fun
      | .filled distance element => .filled distance (element.1, value)
      | entry => entry }

/-- The loop of `emplace_new_key`: an element nearer to its index gives way. -/
def displace (maxLookups : Nat) :
    List (Entry K V) → Nat → K × V → Except Failure (Displaced K V)
  | [], _, _ => .error .pastEnd
  | entry :: rest, distance, toInsert =>
    if entry.isEmpty then .ok (.placed (.filled distance toInsert :: rest))
    else if entry.distanceFromDesired < distance then
      match entry with
      | .filled nearer value =>
        (displace maxLookups rest (nearer + 1) value).map (.cons (.filled distance toInsert))
      | _ => .error .noValue
    else if distance + 1 = maxLookups then .ok (.stuck (entry :: rest) toInsert)
    else (displace maxLookups rest (distance + 1) toInsert).map (.cons entry)

/-- `emplace_new_key`. `again` stands for `grow` and the second call of `emplace`. -/
def emplaceNewKey (again : Table K V → K × V → Except Failure (Emplaced K V)) (t : Table K V)
    (distance it : Nat) (value : K × V) : Except Failure (Emplaced K V) :=
  if t.numSlotsMinusOne = 0 ∨ distance = t.maxLookups ∨
      t.numSlotsMinusOne + 1 < 2 * (t.numElements + 1) then
    again t value
  else
    match t.entries.drop it with
    | [] => .error .pastEnd
    | entry :: rest =>
      if entry.isEmpty then
        .ok ⟨{ t with
            entries := t.entries.take it ++ .filled distance value :: rest
            numElements := t.numElements + 1 }, it, true⟩
      else
        match entry with
        | .filled nearer old => do
          match ← displace t.maxLookups rest (nearer + 1) old with
          | .placed rest =>
            pure ⟨{ t with
                entries := t.entries.take it ++ .filled distance value :: rest
                numElements := t.numElements + 1 }, it, true⟩
          -- the element left over goes where the new one was put, and the new one is tried again
          | .stuck rest left =>
            again { t with entries := t.entries.take it ++ .filled distance left :: rest } value
        | _ => .error .noValue

/-- One turn of the loop of `rehash` over the old entries. -/
def moveEntry (emplace : Table K V → K × V → Except Failure (Emplaced K V)) (t : Table K V)
    (entry : Entry K V) : Except Failure (Table K V) :=
  if entry.hasValue then
    match entry.item? with
    | none => .error .noValue
    | some value => do
      let emplaced ← emplace t value
      pure emplaced.table
  else pure t

/-- `rehash`. -/
def rehash (allocate : Nat → Bool)
    (emplace : Table K V → K × V → Except Failure (Emplaced K V)) (t : Table K V)
    (numBuckets : Nat) : Except Failure (Table K V) :=
  let numBuckets := max numBuckets (2 * t.numElements)
  if numBuckets = 0 then .ok t.resetToEmptyState
  else
    let (newShift, size) := nextSizeOver (UInt64.ofNat numBuckets)
    if size.toNat = t.bucketCount then .ok t
    else
      let newMaxLookups := computeMaxLookups size
      if allocate (size.toNat + newMaxLookups) then
        let fresh : Table K V :=
          { entries := List.replicate (size.toNat + newMaxLookups - 1) .free ++ [.stop]
            numSlotsMinusOne := size.toNat - 1
            shift := newShift
            maxLookups := newMaxLookups
            numElements := 0 }
        (t.entries.take t.endIt).foldlM (moveEntry emplace) fresh
      else .error (.badAlloc (size.toNat + newMaxLookups))

/-- `grow`. -/
def grow (allocate : Nat → Bool)
    (emplace : Table K V → K × V → Except Failure (Emplaced K V)) (t : Table K V) :
    Except Failure (Table K V) :=
  t.rehash allocate emplace (max 4 (2 * t.bucketCount))

section Insert

variable [DecidableEq K] (hash : K → UInt64) (allocate : Nat → Bool)

/-- `emplace`, with at most `depth` calls in each other. -/
def emplaceWithin : Nat → Table K V → K × V → Except Failure (Emplaced K V)
  | 0, _, _ => .error .unfinished
  | depth + 1, t, value => do
    let index := indexForHash t.shift (hash value.1)
    match ← probe value.1 (t.entries.drop index) index 0 with
    | .found it => pure ⟨t, it, false⟩
    | .missing it distance =>
      emplaceNewKey
        (fun t value => do
          let grown ← t.grow allocate (emplaceWithin depth)
          emplaceWithin depth grown value)
        t distance it value

/-- `emplace`. Each growth doubles the size, so that no more than 64 are in each other. -/
def emplace (t : Table K V) (value : K × V) : Except Failure (Emplaced K V) :=
  emplaceWithin hash allocate 64 t value

/-- `operator[]` as the target of an assignment: `emplace` with a value of its own, which is
then replaced. -/
def assign [Inhabited V] (t : Table K V) (key : K) (value : V) : Except Failure (Table K V) := do
  let emplaced ← t.emplace hash allocate (key, default)
  pure (emplaced.table.setSecond emplaced.it value)

/-- `num_buckets_for_reserve`. -/
def numBucketsForReserve (numElements : Nat) : Nat := 2 * numElements

/-- `reserve`. -/
def reserve (t : Table K V) (numElements : Nat) : Except Failure (Table K V) :=
  if t.bucketCount < numBucketsForReserve numElements then
    t.rehash allocate (emplace hash allocate) (numBucketsForReserve numElements)
  else pure t

/-- `shrink_to_fit`. -/
def shrinkToFit (t : Table K V) : Except Failure (Table K V) :=
  t.rehash allocate (emplace hash allocate)
    (min (numBucketsForReserve t.size) t.bucketCount)

end Insert

/-! ## Erasing -/

/-- The loop of `erase`, behind the entry that was emptied: the elements behind it move one
place nearer to their index, up to the first one that is there. -/
def moveBack : List (Entry K V) → Except Failure (List (Entry K V))
  | [] => .error .pastEnd
  | next :: rest =>
    if next.isAtDesiredPosition then .ok (.free :: next :: rest)
    else
      match next with
      | .filled distance value => (moveBack rest).map (.filled (distance - 1) value :: ·)
      | _ => .error .noValue

/-- `erase` of an iterator. -/
def eraseAt (t : Table K V) (it : Nat) : Except Failure (Table K V) := do
  let moved ← moveBack (t.entries.drop (it + 1))
  pure { t with
    entries := t.entries.take it ++ moved
    numElements := t.numElements - 1 }

/-- `erase` of a key, and the number of elements erased. -/
def erase [DecidableEq K] (hash : K → UInt64) (t : Table K V) (key : K) :
    Except Failure (Table K V × Nat) := do
  let it ← t.find hash key
  if it = t.endIt then pure (t, 0)
  else
    let erased ← t.eraseAt it
    pure (erased, 1)

end Table
end RazorCrypto.FlatHashMap
