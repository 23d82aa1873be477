import RazorCrypto.FlatHashMap.Iteration
import RazorCrypto.Strategy.Polling

/-!
# Polling over a hash table

`m_depth10` is a `flat_hash_map`, and a pass of `poll_depth10` walks over it with an iterator,
writes the bookmarks through it and reads the record of an element again for each access.
Here the strategy is followed down to the entries of its table. Its runs are runs of the
strategy that keeps a finite map of bookmarks. No access of a pass goes astray, and neither does one
of `sub_depth10`, whose `operator[]` may have to rehash: it fails only where the allocator refuses
memory, and a run goes on only where it did not fail.
-/

namespace RazorCrypto.Strategy

open Transition RobinHood FlatHashMap

/-- Where `poll_depth10` stands, with its iterator. -/
inductive TablePhase
  | idle
  | visit (it : Nat)
  | bookmark (it : Nat)
  | getCurTest (it : Nat)
  | getCurIndex (it : Nat)

/-- The counters of the records and one strategy with its hash table. -/
structure TableState (R : Type) where
  currentIndex : R → Nat
  mDepth10 : Table R Nat
  phase : TablePhase
  pass : Nat

variable {R : Type} [DecidableEq R] (hash : R → UInt64) (allocate : Nat → Bool)

namespace TableState

omit [DecidableEq R] in
/-- A strategy without subscriptions. -/
def start (currentIndex : R → Nat) : TableState R := ⟨currentIndex, Table.new, .idle, 0⟩

end TableState

/-- One step: an update is counted, `sub_depth10` subscribes, or `poll_depth10` makes its next
read of a record. A step of the table is taken where the call on the table returns. -/
inductive TableStep : TableState R → Event R → TableState R → Prop
  | onRtnData {s} (r : R) :
      TableStep s (.counted r (s.currentIndex r + 1))
        { s with currentIndex := Function.update s.currentIndex r (s.currentIndex r + 1) }
  | subDepth10 {s} (r : R) {table : Table R Nat} (idle : s.phase = .idle)
      (assigned : s.mDepth10.assign hash allocate r (s.currentIndex r) = .ok table) :
      TableStep s (.subscribed r) { s with mDepth10 := table }
  | began {s it} (idle : s.phase = .idle) (first : s.mDepth10.begin = .ok it) :
      TableStep s (.began (s.pass + 1)) { s with phase := .visit it, pass := s.pass + 1 }
  | skip {s it it' r index} (visit : s.phase = .visit it) (inside : it ≠ s.mDepth10.endIt)
      (element : s.mDepth10.deref it = .ok (r, index)) (same : s.currentIndex r = index)
      (next : s.mDepth10.next it = .ok it') :
      TableStep s (.read r) { s with phase := .visit it' }
  | test {s it r index} (visit : s.phase = .visit it) (inside : it ≠ s.mDepth10.endIt)
      (element : s.mDepth10.deref it = .ok (r, index)) (new : s.currentIndex r ≠ index) :
      TableStep s (.read r) { s with phase := .bookmark it }
  | bookmark {s it r index} (phase : s.phase = .bookmark it)
      (element : s.mDepth10.deref it = .ok (r, index)) :
      TableStep s (.read r)
        { s with
          mDepth10 := s.mDepth10.setSecond it (s.currentIndex r)
          phase := .getCurTest it }
  | getCurNull {s it it' r index} (phase : s.phase = .getCurTest it)
      (element : s.mDepth10.deref it = .ok (r, index)) (zero : s.currentIndex r < 1)
      (next : s.mDepth10.next it = .ok it') :
      TableStep s (.read r) { s with phase := .visit it' }
  | getCurTest {s it r index} (phase : s.phase = .getCurTest it)
      (element : s.mDepth10.deref it = .ok (r, index)) (pos : 1 ≤ s.currentIndex r) :
      TableStep s (.read r) { s with phase := .getCurIndex it }
  | getCur {s it it' r index} (phase : s.phase = .getCurIndex it)
      (element : s.mDepth10.deref it = .ok (r, index))
      (next : s.mDepth10.next it = .ok it') :
      TableStep s (.fetched s.pass r (s.currentIndex r)) { s with phase := .visit it' }
  | ended {s it} (visit : s.phase = .visit it) (last : it = s.mDepth10.endIt) :
      TableStep s (.ended s.pass) { s with phase := .idle }

namespace TableState

omit [DecidableEq R]

/-- The record whose bookmark is set and whose update `get_cur` has yet to find. -/
def fetching (s : TableState R) : Option R :=
  match s.phase with
  | .getCurTest it | .getCurIndex it => (s.mDepth10.deref it).toOption.map Prod.fst
  | _ => none

/-- An iterator can be read and moved on. -/
def Reads (s : TableState R) (it : Nat) : Prop :=
  (∃ element, s.mDepth10.deref it = .ok element) ∧ ∃ it', s.mDepth10.next it = .ok it'

end TableState

/-- `sub_depth10` of a record sets its bookmark, or the allocator refuses the memory for it. -/
def TableState.Assigns (s : TableState R) (r : R) : Prop :=
  Fallible.Ends (OutOfMemory allocate) (fun _ => True)
    (s.mDepth10.assign hash allocate r (s.currentIndex r))

/-- The next access is inside of the table, whether it is that of a pass or of a subscription. -/
def TableState.Accessible (s : TableState R) : Prop :=
  match s.phase with
  | .idle => (∃ it, s.mDepth10.begin = .ok it) ∧ ∀ r, s.Assigns hash allocate r
  | .visit it => it ≠ s.mDepth10.endIt → s.Reads it
  | .bookmark it | .getCurTest it | .getCurIndex it => s.Reads it

/-- A step that counts no update of a record between its bookmark and the end of `get_cur`. -/
def QuietTableStep (s : TableState R) (e : Event R) (t : TableState R) : Prop :=
  TableStep hash allocate s e t ∧ ∀ r index, e = .counted r index → s.fetching ≠ some r

/-! ## The finite map of bookmarks -/

omit [DecidableEq R] in
/-- The records from an iterator on. -/
def recordsFrom (table : Table R Nat) (it : Nat) : List R :=
  (items (table.entries.drop it)).map Prod.fst

omit [DecidableEq R] in
/-- The iterator points to the element of a record. -/
def PointsAt (table : Table R Nat) (it : Nat) (r : R) : Prop :=
  ∃ distance index, table.entries[it]? = some (.filled distance (r, index))

omit [DecidableEq R] in
/-- The phase of a pass with an iterator, and the same with the records that are left. -/
inductive SamePhase (table : Table R Nat) : TablePhase → Phase R → Prop
  | idle : SamePhase table .idle .idle
  | visit {it} (stands : table.Stands it) :
      SamePhase table (.visit it) (.visit (recordsFrom table it))
  | bookmark {it r} (points : PointsAt table it r) :
      SamePhase table (.bookmark it) (.bookmark r (recordsFrom table (it + 1)))
  | getCurTest {it r} (points : PointsAt table it r) :
      SamePhase table (.getCurTest it) (.getCurTest r (recordsFrom table (it + 1)))
  | getCurIndex {it r} (points : PointsAt table it r) :
      SamePhase table (.getCurIndex it) (.getCurIndex r (recordsFrom table (it + 1)))

omit [DecidableEq R] in
/-- A strategy with its table, and the same with a finite map. -/
structure Mirrors (s : TableState R) (a : State R) : Prop where
  currentIndex : s.currentIndex = a.currentIndex
  pass : s.pass = a.pass
  sound : s.mDepth10.Sound hash
  bookmarks : ∀ r index, (r, index) ∈ s.mDepth10.elements ↔ a.mDepth10 r = some index
  phase : SamePhase s.mDepth10 s.phase a.phase

section Iterators
omit [DecidableEq R]

variable {hash} {table : Table R Nat} {it : Nat} {r : R}

/-- What an iterator that points to an element reads. -/
theorem PointsAt.deref_eq (points : PointsAt table it r) {element : R × Nat}
    (read : table.deref it = .ok element) : element.1 = r := by
  obtain ⟨distance, index, found⟩ := points
  rw [Table.Sound.deref_eq found] at read
  exact congrArg Prod.fst (Except.ok.inj read).symm

theorem PointsAt.key_eq (points : PointsAt table it r) :
    (table.deref it).toOption.map Prod.fst = some r := by
  obtain ⟨distance, index, found⟩ := points
  rw [Table.Sound.deref_eq found]
  rfl

/-- Where the loop goes on, and what is left then. -/
theorem PointsAt.next_eq (points : PointsAt table it r) (sound : table.Sound hash) :
    ∃ it', table.next it = .ok it' ∧ table.Stands it' ∧
      recordsFrom table it' = recordsFrom table (it + 1) := by
  obtain ⟨distance, index, found⟩ := points
  obtain ⟨last, -⟩ | ⟨_, _, -, -, -, it', moved, -, stands, same⟩ :=
    sound.stands_cases ⟨_, found, nofun⟩
  · exact absurd last (sound.lt_endIt found).ne
  · exact ⟨it', moved, stands, congrArg (List.map Prod.fst) same⟩

/-- The next iterator stands where the records that are left begin. -/
theorem PointsAt.visit_next (points : PointsAt table it r) (sound : table.Sound hash) {it' : Nat}
    (next : table.next it = .ok it') :
    SamePhase table (.visit it') (.visit (recordsFrom table (it + 1))) := by
  obtain ⟨_, moved, stands, same⟩ := points.next_eq sound
  cases moved.symm.trans next
  rw [← same]
  exact .visit stands

/-- An iterator that is not at the end points to the first record that is left. -/
theorem points_of_stands (sound : table.Sound hash) (stands : table.Stands it)
    (inside : it ≠ table.endIt) :
    ∃ r index, PointsAt table it r ∧ table.deref it = .ok (r, index) ∧
      recordsFrom table it = r :: recordsFrom table (it + 1) ∧ (r, index) ∈ table.elements := by
  obtain ⟨last, -⟩ | ⟨distance, ⟨r, index⟩, found, -, split, -⟩ := sound.stands_cases stands
  · exact absurd last inside
  · refine ⟨r, index, ⟨distance, index, found⟩, Table.Sound.deref_eq found, ?_,
      Table.Sound.mem_elements_of_getElem? found⟩
    rw [recordsFrom, split]
    rfl

end Iterators

namespace Mirrors

variable {hash allocate} {s t : TableState R} {a : State R} {e : Event R} {r : R} {it : Nat}

omit [DecidableEq R] in
theorem start (currentIndex : R → Nat) :
    Mirrors hash (TableState.start currentIndex) (State.start currentIndex) :=
  ⟨rfl, rfl, Table.new_sound, fun _ _ => iff_of_false List.not_mem_nil nofun, .idle⟩

omit [DecidableEq R] in
theorem mem_keys (h : Mirrors hash s a) : r ∈ s.mDepth10.keys ↔ a.mDepth10 r ≠ none := by
  rw [Table.keys, List.mem_map, Option.ne_none_iff_exists']
  constructor
  · rintro ⟨⟨_, index⟩, listed, rfl⟩
    exact ⟨index, (h.bookmarks _ index).mp listed⟩
  · rintro ⟨index, found⟩
    exact ⟨_, (h.bookmarks r index).mpr found, rfl⟩

/-- A bookmark was set in the table. -/
theorem mark (h : Mirrors hash s a) {mDepth10 : Table R Nat}
    (replaced : ∀ r' index', (r', index') ∈ mDepth10.elements ↔
      if r' = r then index' = s.currentIndex r else (r', index') ∈ s.mDepth10.elements)
    (r' : R) (index' : Nat) :
    (r', index') ∈ mDepth10.elements ↔ (a.mark r).mDepth10 r' = some index' := by
  rw [replaced]
  split
  · next same =>
      subst same
      rw [State.mark_self, Option.some.injEq, h.currentIndex, eq_comm]
  · next other => rw [State.mark_of_ne a other, h.bookmarks]

/-! ## Steps -/

theorem subscribe (h : Mirrors hash s a) (refuses : Refuses allocate) {table : Table R Nat}
    (idle : s.phase = .idle)
    (assigned : s.mDepth10.assign hash allocate r (s.currentIndex r) = .ok table) :
    ∃ b, Step a (.subscribed r) b ∧ Mirrors hash { s with mDepth10 := table } b := by
  obtain ⟨sound, replaced⟩ : table.Sound hash ∧ ∀ r' index', (r', index') ∈ table.elements ↔
      if r' = r then index' = s.currentIndex r else (r', index') ∈ s.mDepth10.elements := by
    have kept := h.sound.assign_replaces refuses r (s.currentIndex r)
    rw [assigned] at kept
    exact kept
  have phase := h.phase
  generalize same : a.phase = phase' at phase
  rw [idle] at phase
  cases phase
  refine ⟨_, .subDepth10 r same, h.currentIndex, h.pass, sound, h.mark replaced, ?_⟩
  change SamePhase table s.phase a.phase
  rw [idle, same]
  exact .idle

theorem began (h : Mirrors hash s a) (idle : s.phase = .idle) (first : s.mDepth10.begin = .ok it) :
    ∃ b, Step a (.began (s.pass + 1)) b ∧
      Mirrors hash { s with phase := .visit it, pass := s.pass + 1 } b := by
  obtain ⟨_, ends, stands, all⟩ := h.sound.begin_eq
  cases ends.symm.trans first
  have records : recordsFrom s.mDepth10 it = s.mDepth10.keys := congrArg (List.map Prod.fst) all
  have phase := h.phase
  generalize same : a.phase = phase' at phase
  rw [idle] at phase
  cases phase
  have taken : Step a (.began (a.pass + 1))
      { a with phase := .visit (recordsFrom s.mDepth10 it), pass := a.pass + 1 } := by
    refine .began same ?_ fun r => ?_
    · rw [records]
      exact h.sound.distinct
    · rw [records]
      exact h.mem_keys
  rw [h.pass]
  exact ⟨_, taken, h.currentIndex, rfl, h.sound, h.bookmarks, .visit stands⟩

omit [DecidableEq R] in
/-- A read that leaves the table as it is. -/
theorem goto (h : Mirrors hash s a) {phase : TablePhase} {phase' : Phase R}
    (same : SamePhase s.mDepth10 phase phase') :
    Mirrors hash { s with phase := phase } (a.goto phase') :=
  ⟨h.currentIndex, h.pass, h.sound, h.bookmarks, same⟩

omit [DecidableEq R] in
/-- The first record that is left, at the read of the test. -/
theorem visit (h : Mirrors hash s a) (visit : s.phase = .visit it)
    (inside : it ≠ s.mDepth10.endIt) {index : Nat}
    (element : s.mDepth10.deref it = .ok (r, index)) :
    PointsAt s.mDepth10 it r ∧ a.phase = .visit (r :: recordsFrom s.mDepth10 (it + 1)) ∧
      a.mDepth10 r = some index := by
  have phase := h.phase
  generalize same : a.phase = phase' at phase
  rw [visit] at phase
  cases phase with
  | visit stands =>
      obtain ⟨_, _, points, read, split, listed⟩ := points_of_stands h.sound stands inside
      cases read.symm.trans element
      exact ⟨points, by rw [split], (h.bookmarks r index).mp listed⟩

theorem bookmark (h : Mirrors hash s a) (at_phase : s.phase = .bookmark it) {index : Nat}
    (element : s.mDepth10.deref it = .ok (r, index)) :
    ∃ b, Step a (.read r) b ∧
      Mirrors hash
        { s with
          mDepth10 := s.mDepth10.setSecond it (s.currentIndex r)
          phase := .getCurTest it } b := by
  have phase := h.phase
  generalize same : a.phase = phase' at phase
  rw [at_phase] at phase
  cases phase with
  | bookmark points =>
      cases points.deref_eq element
      obtain ⟨distance, index, found⟩ := points
      obtain ⟨found', rest⟩ := Table.Sound.setSecond_eq found (s.currentIndex r)
      refine ⟨_, .bookmark same, h.currentIndex, h.pass,
        (h.sound.setSecond_replaces found _).1, h.mark (h.sound.mem_setSecond found _), ?_⟩
      rw [recordsFrom, ← rest]
      exact .getCurTest ⟨distance, _, found'⟩

/-- Each step with the table is the step of the same event with the finite map. -/
theorem step (h : Mirrors hash s a) (refuses : Refuses allocate)
    (taken : TableStep hash allocate s e t) : ∃ b, Step a e b ∧ Mirrors hash t b := by
  cases taken with
  | onRtnData r =>
      rw [h.currentIndex]
      exact ⟨_, .onRtnData r, rfl, h.pass, h.sound, h.bookmarks, h.phase⟩
  | subDepth10 r idle assigned => exact h.subscribe refuses idle assigned
  | began idle first => exact h.began idle first
  | skip visit inside element same next =>
      obtain ⟨points, phase, marked⟩ := h.visit visit inside element
      rw [← same, h.currentIndex] at marked
      exact ⟨_, .skip phase marked, h.goto (points.visit_next h.sound next)⟩
  | test visit inside element new =>
      obtain ⟨points, phase, marked⟩ := h.visit visit inside element
      refine ⟨_, .test phase ?_, h.goto (.bookmark points)⟩
      rw [marked, ← h.currentIndex]
      exact fun same => new (Option.some.inj same).symm
  | bookmark phase element => exact h.bookmark phase element
  | @getCurNull it it' r index at_phase element zero next =>
      have phase := h.phase
      generalize same : a.phase = phase' at phase
      rw [at_phase] at phase
      cases phase with
      | getCurTest points =>
          cases points.deref_eq element
          rw [h.currentIndex] at zero
          exact ⟨_, .getCurNull same zero, h.goto (points.visit_next h.sound next)⟩
  | @getCurTest it r index at_phase element pos =>
      have phase := h.phase
      generalize same : a.phase = phase' at phase
      rw [at_phase] at phase
      cases phase with
      | getCurTest points =>
          cases points.deref_eq element
          rw [h.currentIndex] at pos
          exact ⟨_, .getCurTest same pos, h.goto (.getCurIndex points)⟩
  | @getCur it it' r index at_phase element next =>
      have phase := h.phase
      generalize same : a.phase = phase' at phase
      rw [at_phase] at phase
      cases phase with
      | getCurIndex points =>
          cases points.deref_eq element
          refine ⟨_, ?_, h.goto (points.visit_next h.sound next)⟩
          rw [h.currentIndex, h.pass]
          exact .getCur same
  | @ended it at_phase last =>
      have phase := h.phase
      generalize same : a.phase = phase' at phase
      rw [at_phase] at phase
      cases phase with
      | visit stands =>
          obtain ⟨-, none⟩ | ⟨_, _, _, other, _⟩ := h.sound.stands_cases stands
          · rw [recordsFrom, none] at same
            refine ⟨_, ?_, h.goto .idle⟩
            rw [h.pass]
            exact .ended same
          · exact absurd last other

/-- Each run with the table is a run of the same events with the finite map. -/
theorem of_run {currentIndex : R → Nat} {events : List (Event R)} (refuses : Refuses allocate)
    (run : Run (TableStep hash allocate) (TableState.start currentIndex) events s) :
    ∃ a, Run Step (State.start currentIndex) events a ∧ Mirrors hash s a := by
  induction run with
  | refl => exact ⟨_, .refl, start currentIndex⟩
  | snoc _ taken ih =>
      obtain ⟨a, earlier, mirrors⟩ := ih
      obtain ⟨b, taken', mirrors'⟩ := mirrors.step refuses taken
      exact ⟨b, earlier.snoc taken', mirrors'⟩

/-! ## What is fetched, and what is accessed -/

omit [DecidableEq R] in
theorem fetching_eq (h : Mirrors hash s a) : s.fetching = a.phase.fetching := by
  obtain ⟨current, pass, sound, bookmarks, phase⟩ := h
  rw [TableState.fetching]
  generalize s.phase = first at phase
  generalize a.phase = second at phase
  cases phase with
  | idle => rfl
  | visit => rfl
  | bookmark => rfl
  | getCurTest points => exact points.key_eq
  | getCurIndex points => exact points.key_eq

theorem of_quiet_run {currentIndex : R → Nat} {events : List (Event R)}
    (refuses : Refuses allocate)
    (run : Run (QuietTableStep hash allocate) (TableState.start currentIndex) events s) :
    ∃ a, Run QuietStep (State.start currentIndex) events a ∧ Mirrors hash s a := by
  induction run with
  | refl => exact ⟨_, .refl, start currentIndex⟩
  | snoc _ taken ih =>
      obtain ⟨a, earlier, mirrors⟩ := ih
      obtain ⟨b, taken', mirrors'⟩ := mirrors.step refuses taken.1
      refine ⟨b, earlier.snoc ⟨taken', fun r index same => ?_⟩, mirrors'⟩
      rw [← mirrors.fetching_eq]
      exact taken.2 r index same

theorem assigns (h : Mirrors hash s a) (refuses : Refuses allocate) (r : R) :
    s.Assigns hash allocate r :=
  (h.sound.assign_replaces refuses r (s.currentIndex r)).mono fun _ _ => trivial

theorem accessible (h : Mirrors hash s a) (refuses : Refuses allocate) :
    s.Accessible hash allocate := by
  have known : ∀ it r, PointsAt s.mDepth10 it r → s.Reads it := by
    rintro it r points
    obtain ⟨it', moved, -⟩ := points.next_eq h.sound
    obtain ⟨distance, index, found⟩ := points
    exact ⟨⟨_, Table.Sound.deref_eq found⟩, it', moved⟩
  have assigns := h.assigns refuses
  obtain ⟨current, pass, sound, bookmarks, phase⟩ := h
  rw [TableState.Accessible]
  generalize s.phase = first at phase
  generalize a.phase = second at phase
  cases phase with
  | idle =>
      obtain ⟨it, ends, -⟩ := sound.begin_eq
      exact ⟨⟨it, ends⟩, assigns⟩
  | @visit it stands =>
      intro inside
      obtain ⟨r, _, points, -⟩ := points_of_stands sound stands inside
      exact known it r points
  | bookmark points => exact known _ _ points
  | getCurTest points => exact known _ _ points
  | getCurIndex points => exact known _ _ points

end Mirrors

variable {hash allocate} {s : TableState R} {events : List (Event R)}

/-- The only address is `7`, and an array may have 100 entries. -/
abbrev OneRecordStep : TableState (Fin 1) → Event (Fin 1) → TableState (Fin 1) → Prop :=
  QuietTableStep (fun _ => 7) fun n => n < 100

/-- The table after the subscription, with a bookmark. -/
def oneRecord (index : Nat) : Table (Fin 1) Nat :=
  ⟨[.free, .filled 0 (0, index), .free, .free, .free, .free, .free, .stop], 3, 62, 4, 1⟩

/-- One update and two passes over the table. -/
def tablePasses : List (Event (Fin 1)) :=
  [.subscribed 0, .counted 0 1, .began 1, .read 0, .read 0, .read 0, .fetched 1 0 1, .ended 1,
    .began 2, .read 0, .ended 2]

theorem assign_oneRecord :
    (Table.new : Table (Fin 1) Nat).assign (fun _ => 7) (fun n => n < 100) 0 0 =
      .ok (oneRecord 0) := rfl

theorem begin_oneRecord (index : Nat) : (oneRecord index).begin = .ok 1 := rfl

theorem deref_oneRecord (index : Nat) : (oneRecord index).deref 1 = .ok (0, index) := rfl

theorem next_oneRecord (index : Nat) : (oneRecord index).next 1 = .ok 7 := rfl

theorem tablePasses_run : ∃ s, Run OneRecordStep (.start fun _ => 0) tablePasses s :=
  ⟨_, .head ⟨.subDepth10 0 rfl assign_oneRecord, fun _ _ => nofun⟩ <|
    .head ⟨.onRtnData 0, fun _ _ _ => nofun⟩ <|
    .head ⟨.began rfl (begin_oneRecord 0), fun _ _ => nofun⟩ <|
    .head ⟨.test rfl (by decide) (deref_oneRecord 0) (by decide), fun _ _ => nofun⟩ <|
    .head ⟨.bookmark rfl (deref_oneRecord 0), fun _ _ => nofun⟩ <|
    .head ⟨.getCurTest rfl (deref_oneRecord 1) (by decide), fun _ _ => nofun⟩ <|
    .head ⟨.getCur rfl (deref_oneRecord 1) (next_oneRecord 1), fun _ _ => nofun⟩ <|
    .head ⟨.ended rfl rfl, fun _ _ => nofun⟩ <|
    .head ⟨.began rfl (begin_oneRecord 1), fun _ _ => nofun⟩ <|
    .head ⟨.skip rfl (by decide) (deref_oneRecord 1) rfl (next_oneRecord 1), fun _ _ => nofun⟩ <|
    .single ⟨.ended rfl rfl, fun _ _ => nofun⟩⟩

theorem refuses_hundred : Refuses fun n => n < 100 := by
  intro n large
  exact decide_eq_false (by omega)

end RazorCrypto.Strategy
