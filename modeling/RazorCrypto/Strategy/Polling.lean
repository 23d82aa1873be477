import Mathlib.Data.List.Nodup
import Mathlib.Logic.Function.Basic
import RazorCrypto.Foundation.Transition
import RazorCrypto.Shm.Plus.Refinement

/-!
# Strategies that poll records

`K4BaseStrategy` keeps, for each record it subscribed to, the `current_index` it saw last. A pass of
`poll_depth10` visits each of these records. It reads `current_index` for the test, again for the
bookmark and twice in `get_cur`, and `on_rtn_data` may count an update between any two of these
reads.

An update is known by its number, the value of `current_index` once it is counted. Copying it into
its slot changes no counter and is not a step here. As in the store, `current_index` is unbounded;
the records that `sub_md` finds are those of instruments, where it is never negative.
-/

universe u v

namespace RazorCrypto.Strategy

open Transition

/-- What the writers and a strategy do with the records `R`. -/
inductive Event (R : Type u)
  | counted (r : R) (index : Nat)
  | subscribed (r : R)
  | began (pass : Nat)
  | read (r : R)
  | fetched (pass : Nat) (r : R) (index : Nat)
  | ended (pass : Nat)

/-- Where `poll_depth10` stands: the read of a record that comes next, and the records after it. -/
inductive Phase (R : Type u)
  | idle
  | visit (todo : List R)
  | bookmark (r : R) (todo : List R)
  | getCurTest (r : R) (todo : List R)
  | getCurIndex (r : R) (todo : List R)

namespace Phase

variable {R : Type u}

/-- The records that the pass is not done with. -/
def remaining : Phase R → List R
  | idle => []
  | visit todo => todo
  | bookmark r todo | getCurTest r todo | getCurIndex r todo => r :: todo

/-- The record whose bookmark is set and whose update `get_cur` has yet to find. -/
def fetching : Phase R → Option R
  | getCurTest r _ | getCurIndex r _ => some r
  | _ => none

end Phase

/-- The counters of the records and one strategy. -/
structure State (R : Type u) where
  currentIndex : R → Nat
  mDepth10 : R → Option Nat
  phase : Phase R
  pass : Nat

namespace State

variable {R : Type u}

/-- A strategy without subscriptions. -/
def start (currentIndex : R → Nat) : State R := ⟨currentIndex, fun _ => none, .idle, 0⟩

variable [DecidableEq R]

/-- `++index->current_index`. -/
def count (s : State R) (r : R) : State R :=
  { s with currentIndex := Function.update s.currentIndex r (s.currentIndex r + 1) }

/-- `m_depth10[hdr] = hdr->current_index`, and the same for `it.second`. -/
def mark (s : State R) (r : R) : State R :=
  { s with mDepth10 := Function.update s.mDepth10 r (some (s.currentIndex r)) }

/-- The pass goes on to `phase`. -/
def goto (s : State R) (phase : Phase R) : State R := { s with phase := phase }

variable (s : State R) {a b : R}

@[simp] theorem count_self : (s.count a).currentIndex a = s.currentIndex a + 1 :=
  Function.update_self ..

@[simp] theorem count_of_ne (ne : b ≠ a) : (s.count a).currentIndex b = s.currentIndex b :=
  Function.update_of_ne ne ..

@[simp] theorem mark_self : (s.mark a).mDepth10 a = some (s.currentIndex a) :=
  Function.update_self ..

@[simp] theorem mark_of_ne (ne : b ≠ a) : (s.mark a).mDepth10 b = s.mDepth10 b :=
  Function.update_of_ne ne ..

theorem mark_ne_none (marked : s.mDepth10 b ≠ none) : (s.mark a).mDepth10 b ≠ none := by
  by_cases same : b = a
  · subst same
    simp
  · simpa [same] using marked

end State

variable {R : Type u} [DecidableEq R]

/-- One step: `on_rtn_data` counts an update, `sub_depth10` subscribes between two passes, or
`poll_depth10` makes its next read. -/
inductive Step : State R → Event R → State R → Prop
  | onRtnData {s} (r : R) : Step s (.counted r (s.currentIndex r + 1)) (s.count r)
  | subDepth10 {s} (r : R) (idle : s.phase = .idle) : Step s (.subscribed r) (s.mark r)
  | began {s todo} (idle : s.phase = .idle) (nodup : todo.Nodup)
      (all : ∀ r, r ∈ todo ↔ s.mDepth10 r ≠ none) :
      Step s (.began (s.pass + 1)) { s with phase := .visit todo, pass := s.pass + 1 }
  | skip {s r todo} (visit : s.phase = .visit (r :: todo))
      (same : s.mDepth10 r = some (s.currentIndex r)) : Step s (.read r) (s.goto (.visit todo))
  | test {s r todo} (visit : s.phase = .visit (r :: todo))
      (new : s.mDepth10 r ≠ some (s.currentIndex r)) :
      Step s (.read r) (s.goto (.bookmark r todo))
  | bookmark {s r todo} (phase : s.phase = .bookmark r todo) :
      Step s (.read r) ((s.mark r).goto (.getCurTest r todo))
  | getCurNull {s r todo} (phase : s.phase = .getCurTest r todo) (zero : s.currentIndex r < 1) :
      Step s (.read r) (s.goto (.visit todo))
  | getCurTest {s r todo} (phase : s.phase = .getCurTest r todo) (pos : 1 ≤ s.currentIndex r) :
      Step s (.read r) (s.goto (.getCurIndex r todo))
  | getCur {s r todo} (phase : s.phase = .getCurIndex r todo) :
      Step s (.fetched s.pass r (s.currentIndex r)) (s.goto (.visit todo))
  | ended {s} (visit : s.phase = .visit []) : Step s (.ended s.pass) (s.goto .idle)

/-- No update of a record is counted between its bookmark and the end of `get_cur`. -/
def Quiet (s : State R) (e : Event R) : Prop :=
  ∀ r index, e = .counted r index → s.phase.fetching ≠ some r

/-- A step that is quiet. -/
def QuietStep (s : State R) (e : Event R) (t : State R) : Prop := Step s e t ∧ Quiet s e

section
omit [DecidableEq R]

/-- Some pass fetched the update. -/
def Fetched (events : List (Event R)) (r : R) (index : Nat) : Prop :=
  ∃ p, .fetched p r index ∈ events

/-- The update is the last one of its record, and it was made since the subscription. -/
def Latest (events : List (Event R)) (r : R) (index : Nat) : Prop :=
  ∃ before after, events = before ++ .counted r index :: after ∧ .subscribed r ∈ before ∧
    .subscribed r ∉ after ∧ ∀ j, .counted r j ∉ after

/-- No update is fetched in two passes. -/
def FetchedOnce (events : List (Event R)) : Prop :=
  ∀ p q r index, .fetched p r index ∈ events → .fetched q r index ∈ events → p = q

/-- A pass that runs after the last update of a record fetches it, if no earlier pass did. -/
def FetchesLatest (events : List (Event R)) : Prop :=
  ∀ before p during after r index,
    events = before ++ .began p :: during ++ .ended p :: after → (∀ q, .ended q ∉ during) →
    (∀ j, .counted r j ∉ during) → Latest before r index → Fetched (before ++ during) r index

end

variable {s t : State R} {e : Event R} {events during : List (Event R)} {r : R} {index p : Nat}

/-! ## Bookmarks -/

/-- Bookmarks are values that `current_index` had. -/
structure Marked (s : State R) : Prop where
  le : ∀ r index, s.mDepth10 r = some index → index ≤ s.currentIndex r
  behind : ∀ r todo index, s.phase = .bookmark r todo → s.mDepth10 r = some index →
    index < s.currentIndex r
  pos : ∀ r todo, s.phase = .getCurIndex r todo → 1 ≤ s.currentIndex r

namespace Marked

omit [DecidableEq R] in
theorem start (currentIndex : R → Nat) : Marked (State.start currentIndex) :=
  ⟨nofun, nofun, nofun⟩

theorem count_le (s : State R) (a b : R) : s.currentIndex b ≤ (s.count a).currentIndex b := by
  by_cases same : b = a
  · subst same
    simp
  · simp [same]

theorem count (h : Marked s) (a : R) : Marked (s.count a) := by
  refine ⟨fun b index marked => ?_, fun b todo index phase marked => ?_, fun b todo phase => ?_⟩
  · exact (h.le b index marked).trans (count_le s a b)
  · exact (h.behind b todo index phase marked).trans_le (count_le s a b)
  · exact (h.pos b todo phase).trans (count_le s a b)

theorem mark_le (h : Marked s) (a b : R) (index : Nat)
    (marked : (s.mark a).mDepth10 b = some index) : index ≤ s.currentIndex b := by
  by_cases same : b = a
  · subst same
    rw [State.mark_self] at marked
    exact (Option.some_inj.1 marked).ge
  · rw [State.mark_of_ne s same] at marked
    exact h.le b index marked

theorem step (h : Marked s) (taken : Step s e t) : Marked t := by
  cases taken with
  | onRtnData a => exact h.count a
  | subDepth10 a idle =>
      refine ⟨h.mark_le a, fun b todo index phase => ?_, fun b todo phase => ?_⟩
      · cases idle.symm.trans phase
      · cases idle.symm.trans phase
  | began => exact ⟨h.le, nofun, nofun⟩
  | skip => exact ⟨h.le, nofun, nofun⟩
  | @test a todo visit new =>
      refine ⟨h.le, fun b _ index phase marked => ?_, nofun⟩
      cases phase
      refine (h.le a index marked).lt_of_ne ?_
      rintro rfl
      exact new marked
  | bookmark => exact ⟨h.mark_le _, nofun, nofun⟩
  | getCurNull => exact ⟨h.le, nofun, nofun⟩
  | @getCurTest a todo phase pos =>
      refine ⟨h.le, nofun, fun b _ next => ?_⟩
      cases next
      exact pos
  | getCur => exact ⟨h.le, nofun, nofun⟩
  | ended => exact ⟨h.le, nofun, nofun⟩

end Marked

/-! ## The latest update -/

section
omit [DecidableEq R]

theorem Fetched.mono (fetched : Fetched events r index) (more : List (Event R)) :
    Fetched (events ++ more) r index := by
  obtain ⟨p, mem⟩ := fetched
  exact ⟨p, List.mem_append_left _ mem⟩

theorem fetched_concat : Fetched (events ++ [.fetched p r index]) r index :=
  ⟨p, List.mem_append_right _ (List.mem_singleton_self _)⟩

namespace Latest

theorem of_concat (latest : Latest (events ++ [e]) r index) :
    (e = .counted r index ∧ .subscribed r ∈ events) ∨
      Latest events r index ∧ e ≠ .subscribed r ∧ ∀ j, e ≠ .counted r j := by
  obtain ⟨before, after, split, subscribed, unsubscribed, uncounted⟩ := latest
  obtain ⟨-, rfl, rfl⟩ | ⟨rest, rfl, rfl⟩ := concat_eq_split split
  · exact .inl ⟨rfl, subscribed⟩
  · simp only [List.mem_append, List.mem_singleton, not_or] at unsubscribed uncounted
    refine .inr ⟨⟨before, rest, rfl, subscribed, unsubscribed.1, fun j => (uncounted j).1⟩, ?_, ?_⟩
    · exact fun same => unsubscribed.2 same.symm
    · exact fun j same => (uncounted j).2 same.symm

theorem append (latest : Latest events r index) (unsubscribed : .subscribed r ∉ during)
    (uncounted : ∀ j, .counted r j ∉ during) : Latest (events ++ during) r index := by
  obtain ⟨before, after, rfl, subscribed, unsubscribed', uncounted'⟩ := latest
  refine ⟨before, after ++ during, by simp, subscribed, ?_, fun j => ?_⟩
  · simp [unsubscribed, unsubscribed']
  · simp [uncounted, uncounted']

theorem subscribed (latest : Latest events r index) : .subscribed r ∈ events := by
  obtain ⟨before, after, rfl, subscribed, -, -⟩ := latest
  exact List.mem_append_left _ subscribed

end Latest

end

/-- What is known of the latest updates: as soon as the bookmark has the number of one, it was
fetched, or `get_cur` is about to. -/
structure Tracked (events : List (Event R)) (s : State R) : Prop where
  subscribed : ∀ r, .subscribed r ∈ events → s.mDepth10 r ≠ none
  latest : ∀ r index, Latest events r index → index = s.currentIndex r ∧ 1 ≤ index ∧
    (s.mDepth10 r = some index → Fetched events r index ∨ s.phase.fetching = some r)

namespace Tracked

omit [DecidableEq R] in
theorem start (currentIndex : R → Nat) : Tracked [] (State.start currentIndex) := by
  refine ⟨nofun, ?_⟩
  rintro r index ⟨before, after, split, -⟩
  simp at split

omit [DecidableEq R] in
/-- A step that neither counts nor subscribes. Where it changes what is known of a record, the
latest update was fetched or is about to be. -/
theorem read (h : Tracked events s) (kept : t.currentIndex = s.currentIndex)
    (marked : ∀ r, s.mDepth10 r ≠ none → t.mDepth10 r ≠ none)
    (unsubscribed : ∀ r, e ≠ .subscribed r) (uncounted : ∀ r j, e ≠ .counted r j)
    (after : ∀ r, 1 ≤ s.currentIndex r → t.mDepth10 r = some (s.currentIndex r) →
      (s.mDepth10 r = some (s.currentIndex r) ∧ s.phase.fetching ≠ some r) ∨
        Fetched (events ++ [e]) r (s.currentIndex r) ∨ t.phase.fetching = some r) :
    Tracked (events ++ [e]) t := by
  refine ⟨fun r mem => ?_, fun r index latest => ?_⟩
  · obtain mem | same := List.mem_append.1 mem
    · exact marked r (h.subscribed r mem)
    · exact absurd (List.mem_singleton.1 same).symm (unsubscribed r)
  · obtain ⟨same, -⟩ | ⟨latest, -⟩ := latest.of_concat
    · exact absurd same (uncounted r index)
    · obtain ⟨rfl, pos, done⟩ := h.latest r index latest
      refine ⟨by rw [kept], pos, fun now => ?_⟩
      obtain ⟨old, free⟩ | found := after r pos now
      · exact .inl (((done old).resolve_right free).mono _)
      · exact found

omit [DecidableEq R] in
/-- A step that also sets no bookmark, and is not one of `get_cur`. -/
theorem unmarked (h : Tracked events s) (kept : t.currentIndex = s.currentIndex)
    (same : t.mDepth10 = s.mDepth10) (unsubscribed : ∀ r, e ≠ .subscribed r)
    (uncounted : ∀ r j, e ≠ .counted r j) (free : s.phase.fetching = none) :
    Tracked (events ++ [e]) t := by
  refine h.read kept ?_ unsubscribed uncounted fun r _ now => .inl ⟨?_, ?_⟩
  · exact fun r some => by rwa [same]
  · rwa [same] at now
  · simp [free]

theorem count (h : Tracked events s) (marked : Marked s) (a : R) :
    Tracked (events ++ [.counted a (s.currentIndex a + 1)]) (s.count a) := by
  refine ⟨fun r mem => h.subscribed r (by simpa using mem), fun r index latest => ?_⟩
  obtain ⟨same, -⟩ | ⟨latest, -, other⟩ := latest.of_concat
  · cases same
    refine ⟨(s.count_self).symm, Nat.le_add_left _ _, fun now => ?_⟩
    have le := marked.le a _ now
    omega
  · have ne : r ≠ a := by
      rintro rfl
      exact other _ rfl
    obtain ⟨current, pos, done⟩ := h.latest r index latest
    refine ⟨by rw [State.count_of_ne s ne, current], pos, fun now => ?_⟩
    exact (done now).imp_left fun fetched => fetched.mono _

theorem subscribe (h : Tracked events s) (a : R) :
    Tracked (events ++ [.subscribed a]) (s.mark a) := by
  refine ⟨fun r mem => ?_, fun r index latest => ?_⟩
  · obtain mem | same := List.mem_append.1 mem
    · exact s.mark_ne_none (h.subscribed r mem)
    · cases List.mem_singleton.1 same
      simp
  · obtain ⟨same, -⟩ | ⟨latest, other, -⟩ := latest.of_concat
    · cases same
    · have ne : r ≠ a := by
        rintro rfl
        exact other rfl
      obtain ⟨current, pos, done⟩ := h.latest r index latest
      refine ⟨current, pos, fun now => ?_⟩
      rw [State.mark_of_ne s ne] at now
      exact (done now).imp (fun fetched => fetched.mono _) id

theorem step (h : Tracked events s) (marked : Marked s) (taken : Step s e t) :
    Tracked (events ++ [e]) t := by
  cases taken with
  | onRtnData a => exact h.count marked a
  | subDepth10 a _ => exact h.subscribe a
  | began idle _ _ => exact h.unmarked rfl rfl nofun nofun (congrArg Phase.fetching idle)
  | skip visit _ => exact h.unmarked rfl rfl nofun nofun (congrArg Phase.fetching visit)
  | test visit _ => exact h.unmarked rfl rfl nofun nofun (congrArg Phase.fetching visit)
  | @bookmark a todo phase =>
      refine h.read rfl (fun _ => s.mark_ne_none) nofun nofun fun r _ now => ?_
      by_cases same : r = a
      · subst same
        exact .inr (.inr rfl)
      · refine .inl ⟨(State.mark_of_ne s same).symm.trans now, ?_⟩
        simp [phase, Phase.fetching]
  | @getCurNull a todo phase zero =>
      refine h.read rfl (fun _ some => some) nofun nofun fun r pos now => .inl ⟨now, ?_⟩
      rw [phase]
      rintro ⟨⟩
      omega
  | @getCurTest a todo phase pos =>
      refine h.read rfl (fun _ some => some) nofun nofun fun r _ now => ?_
      by_cases same : r = a
      · exact .inr (.inr (congrArg _ same.symm))
      · refine .inl ⟨now, ?_⟩
        simpa [phase, Phase.fetching] using Ne.symm same
  | @getCur a todo phase =>
      refine h.read rfl (fun _ some => some) nofun nofun fun r _ now => ?_
      by_cases same : r = a
      · subst same
        exact .inr (.inl fetched_concat)
      · refine .inl ⟨now, ?_⟩
        simpa [phase, Phase.fetching] using Ne.symm same
  | ended visit => exact h.unmarked rfl rfl nofun nofun (congrArg Phase.fetching visit)

end Tracked

/-! ## What a pass has fetched -/

/-- No update of the record was counted since a pass began. -/
def Still (events : List (Event R)) (r : R) : Prop :=
  ∃ before p during, events = before ++ .began p :: during ∧ ∀ j, .counted r j ∉ during

omit [DecidableEq R] in
theorem Still.of_concat (still : Still (events ++ [e]) r) :
    (∃ p, e = .began p) ∨ Still events r ∧ ∀ j, e ≠ .counted r j := by
  obtain ⟨before, p, during, split, uncounted⟩ := still
  obtain ⟨-, -, rfl⟩ | ⟨rest, rfl, rfl⟩ := concat_eq_split split
  · exact .inl ⟨p, rfl⟩
  · simp only [List.mem_append, List.mem_singleton, not_or] at uncounted
    refine .inr ⟨⟨before, p, rest, rfl, fun j => (uncounted j).1⟩, fun j same => ?_⟩
    exact (uncounted j).2 same.symm

/-- The pass fetched the latest updates of the records it is done with. -/
def Swept (events : List (Event R)) (s : State R) : Prop :=
  ∀ r index, Still events r → r ∉ s.phase.remaining → Latest events r index →
    Fetched events r index

namespace Swept

omit [DecidableEq R] in
/-- A step does not end the visit of a record before its latest update was fetched. -/
theorem concat (h : Swept events s) (begins : ∀ p, e ≠ .began p)
    (done : ∀ r index, r ∉ t.phase.remaining → r ∈ s.phase.remaining →
      Latest events r index → Fetched (events ++ [e]) r index) :
    Swept (events ++ [e]) t := by
  intro r index still finished latest
  obtain ⟨p, same⟩ | ⟨still, uncounted⟩ := still.of_concat
  · exact absurd same (begins p)
  obtain ⟨same, -⟩ | ⟨latest, -⟩ := latest.of_concat
  · exact absurd same (uncounted index)
  by_cases before : r ∈ s.phase.remaining
  · exact done r index finished before latest
  · exact (h r index still before latest).mono _

omit [DecidableEq R] in
/-- The steps that stay with the record. -/
theorem stay {phase : Phase R} (h : Swept events s) (begins : ∀ p, e ≠ .began p)
    (at_phase : s.phase = phase) (same : t.phase.remaining = phase.remaining) :
    Swept (events ++ [e]) t := by
  refine h.concat begins fun r index finished before => absurd ?_ finished
  rwa [same, ← at_phase]

omit [DecidableEq R] in
/-- The steps that leave record `a`. -/
theorem leave {a : R} {todo : List R} (h : Swept events s) (begins : ∀ p, e ≠ .began p)
    (before : s.phase.remaining = a :: todo) (after : t.phase.remaining = todo)
    (done : ∀ index, Latest events a index → Fetched (events ++ [e]) a index) :
    Swept (events ++ [e]) t := by
  refine h.concat begins fun r index finished mem latest => ?_
  rw [before] at mem
  rw [after] at finished
  obtain rfl | mem := List.mem_cons.1 mem
  · exact done index latest
  · exact absurd mem finished

theorem step (h : Swept events s) (tracked : Tracked events s) (taken : Step s e t) :
    Swept (events ++ [e]) t := by
  cases taken with
  | onRtnData a => exact h.stay nofun rfl rfl
  | subDepth10 a _ => exact h.stay nofun rfl rfl
  | began idle nodup all =>
      intro r index _ finished latest
      obtain ⟨same, -⟩ | ⟨latest, -⟩ := latest.of_concat
      · cases same
      · exact absurd ((all r).2 (tracked.subscribed r latest.subscribed)) finished
  | @skip a todo visit same =>
      refine h.leave nofun (congrArg Phase.remaining visit) rfl fun index latest => ?_
      obtain ⟨rfl, -, done⟩ := tracked.latest a index latest
      refine ((done same).resolve_right ?_).mono _
      simp [visit, Phase.fetching]
  | test visit _ => exact h.stay nofun visit rfl
  | bookmark phase => exact h.stay nofun phase rfl
  | @getCurNull a todo phase zero =>
      refine h.leave nofun (congrArg Phase.remaining phase) rfl fun index latest => ?_
      obtain ⟨rfl, pos, -⟩ := tracked.latest a index latest
      omega
  | getCurTest phase _ => exact h.stay nofun phase rfl
  | @getCur a todo phase =>
      refine h.leave nofun (congrArg Phase.remaining phase) rfl fun index latest => ?_
      obtain ⟨rfl, -, -⟩ := tracked.latest a index latest
      exact fetched_concat
  | ended visit => exact h.stay nofun visit rfl

end Swept

/-- The three invariants. -/
structure Sound (events : List (Event R)) (s : State R) : Prop where
  marked : Marked s
  tracked : Tracked events s
  swept : Swept events s

theorem Sound.of_run {currentIndex : R → Nat} (run : Run Step (.start currentIndex) events s) :
    Sound events s := by
  refine run.invariant (I := Sound) ⟨.start currentIndex, .start currentIndex, ?_⟩ ?_
  · rintro r index ⟨before, p, during, split, -⟩
    simp at split
  · intro events s e t h taken
    exact ⟨h.marked.step taken, h.tracked.step h.marked taken, h.swept.step h.tracked taken⟩

/-- While a pass has not ended, the strategy does not subscribe. -/
theorem unsubscribed_of_run {currentIndex : R → Nat} {before : List (Event R)}
    (run : Run Step (.start currentIndex) events s) (split : events = before ++ .began p :: during)
    (running : ∀ q, .ended q ∉ during) : s.phase ≠ .idle ∧ ∀ r, .subscribed r ∉ during := by
  induction run generalizing during with
  | refl => simp at split
  | @snoc events s e t _ taken ih =>
      obtain ⟨rfl, rfl, rfl⟩ | ⟨rest, rfl, rfl⟩ := concat_eq_split split
      · cases taken
        exact ⟨nofun, nofun⟩
      · simp only [List.mem_append, List.mem_singleton, not_or] at running ⊢
        obtain ⟨busy, unsubscribed⟩ := ih rfl fun q => (running q).1
        cases taken with
        | onRtnData a => exact ⟨busy, fun r => ⟨unsubscribed r, nofun⟩⟩
        | subDepth10 a idle => exact absurd idle busy
        | began idle _ _ => exact absurd idle busy
        | ended _ => exact absurd rfl (running _).2
        | _ => exact ⟨nofun, fun r => ⟨unsubscribed r, nofun⟩⟩

open Shm in
/-- What is fetched is the slot into which `on_rtn_data` copied the update. -/
theorem getCur_of_fetched {α : Type v} {currentIndex : R → Nat} {N : Nat}
    (run : Run Step (.start currentIndex) events s) (fetched : .fetched p r index ∈ events)
    (record : MdHeadPlus α) (labelled : record.bufferLen = N) :
    (record.atIndex index).getCur = some ((record.atIndex (index - 1)).nextOffset N) := by
  obtain ⟨before, after, rfl⟩ := List.append_of_mem fetched
  obtain ⟨u, first, rest⟩ := run.split
  obtain ⟨v, taken, -⟩ := rest.uncons
  cases taken with
  | getCur phase =>
      have pos := (Sound.of_run first).marked.pos r _ phase
      have read := MdHeadPlus.getCur_eq (r := record.atIndex (u.currentIndex r)) rfl pos labelled
      rw [read, MdHeadPlus.curOffset_eq rfl pos, MdHeadPlus.nextOffset_eq rfl]

/-- Every pass fetches the latest updates, whatever the writers do. -/
theorem fetchesLatest_of_run {currentIndex : R → Nat}
    (run : Run Step (.start currentIndex) events s) : FetchesLatest events := by
  rintro before p during after r index rfl running uncounted latest
  obtain ⟨u, run, rest⟩ := run.split
  obtain ⟨v, taken, -⟩ := rest.uncons
  have sound := Sound.of_run run
  have fetched : Fetched (before ++ .began p :: during) r index := by
    refine sound.swept r index ⟨before, p, during, rfl, uncounted⟩ ?_ ?_
    · cases taken with
      | ended visit => simp [visit, Phase.remaining]
    · have unsubscribed := (unsubscribed_of_run run rfl running).2 r
      exact latest.append (by simpa using unsubscribed) (by simpa using uncounted)
  simpa [Fetched] using fetched

/-! ## As long as no update comes in between -/

/-- The bookmark of a record is the number of the update that is fetched for it, or a later one. -/
structure Settled (events : List (Event R)) (s : State R) : Prop where
  once : FetchedOnce events
  le : ∀ p r index, .fetched p r index ∈ events → ∃ b, s.mDepth10 r = some b ∧ index ≤ b ∧
    (s.phase.fetching = some r → index < b)
  fetching : ∀ r, s.phase.fetching = some r → s.mDepth10 r = some (s.currentIndex r)

namespace Settled

omit [DecidableEq R] in
theorem start (currentIndex : R → Nat) : Settled [] (State.start currentIndex) :=
  ⟨nofun, nofun, nofun⟩

omit [DecidableEq R] in
/-- A step that fetches nothing, when bookmarks do not decrease and a new one is greater. -/
theorem concat (h : Settled events s) (unfetched : ∀ p r index, e ≠ .fetched p r index)
    (grows : ∀ r b, s.mDepth10 r = some b → ∃ b', t.mDepth10 r = some b' ∧ b ≤ b' ∧
      (t.phase.fetching = some r → s.phase.fetching = some r ∨ b < b'))
    (fetching : ∀ r, t.phase.fetching = some r → t.mDepth10 r = some (t.currentIndex r)) :
    Settled (events ++ [e]) t := by
  have old {p r index} (mem : .fetched p r index ∈ events ++ [e]) :
      .fetched p r index ∈ events := by
    obtain mem | same := List.mem_append.1 mem
    · exact mem
    · exact absurd (List.mem_singleton.1 same).symm (unfetched p r index)
  refine ⟨fun p q r index one two => ?_, fun p r index mem => ?_, fetching⟩
  · exact h.once p q r index (old one) (old two)
  · obtain ⟨b, marked, le, lt⟩ := h.le p r index (old mem)
    obtain ⟨b', marked', le', lt'⟩ := grows r b marked
    refine ⟨b', marked', le.trans le', fun now => ?_⟩
    obtain before | less := lt' now
    · exact (lt before).trans_le le'
    · exact le.trans_lt less

omit [DecidableEq R] in
/-- The steps that set no bookmark and do not lead into `get_cur`. -/
theorem unmarked (h : Settled events s) (unfetched : ∀ p r index, e ≠ .fetched p r index)
    (same : t.mDepth10 = s.mDepth10) (free : t.phase.fetching = none) :
    Settled (events ++ [e]) t := by
  refine h.concat unfetched (fun r b marked => ⟨b, by rwa [same], le_rfl, ?_⟩) ?_
  · simp [free]
  · simp [free]

theorem count (h : Settled events s) (a : R) (quiet : s.phase.fetching ≠ some a) :
    Settled (events ++ [.counted a (s.currentIndex a + 1)]) (s.count a) := by
  refine h.concat nofun (fun r b marked => ⟨b, marked, le_rfl, .inl⟩) fun r now => ?_
  have ne : r ≠ a := by
    rintro rfl
    exact quiet now
  rw [State.count_of_ne s ne]
  exact h.fetching r now

/-- A bookmark that is set becomes the number of the latest update. -/
theorem mark_grows (marked : Marked s) {a r : R} {b : Nat} (before : s.mDepth10 r = some b) :
    ∃ b', (s.mark a).mDepth10 r = some b' ∧ b ≤ b' := by
  by_cases same : r = a
  · subst same
    exact ⟨s.currentIndex r, by simp, marked.le r b before⟩
  · exact ⟨b, by simpa [same] using before, le_rfl⟩

theorem subscribe (h : Settled events s) (marked : Marked s) (a : R) (idle : s.phase = .idle) :
    Settled (events ++ [.subscribed a]) (s.mark a) := by
  have free : (s.mark a).phase.fetching = none := congrArg Phase.fetching idle
  refine h.concat nofun (fun r b before => ?_) (by simp [free])
  obtain ⟨b', after, le⟩ := mark_grows marked before
  exact ⟨b', after, le, by simp [free]⟩

theorem bookmark {a : R} {todo : List R} (h : Settled events s) (marked : Marked s)
    (phase : s.phase = .bookmark a todo) :
    Settled (events ++ [.read a]) ((s.mark a).goto (.getCurTest a todo)) := by
  refine h.concat nofun (fun r b before => ?_) ?_
  · obtain ⟨b', after, le⟩ := mark_grows (a := a) marked before
    refine ⟨b', after, le, ?_⟩
    rintro ⟨⟩
    cases (State.mark_self s).symm.trans after
    exact .inr (marked.behind a todo b phase before)
  · rintro r ⟨⟩
    exact State.mark_self s

omit [DecidableEq R] in
theorem getCur {a : R} {todo : List R} (h : Settled events s)
    (phase : s.phase = .getCurIndex a todo) :
    Settled (events ++ [.fetched s.pass a (s.currentIndex a)]) (s.goto (.visit todo)) := by
  have here : s.phase.fetching = some a := congrArg Phase.fetching phase
  have now := h.fetching a here
  -- An update fetched earlier has a number below the bookmark.
  have new (p : Nat) : .fetched p a (s.currentIndex a) ∉ events := by
    intro mem
    obtain ⟨b, marked, -, lt⟩ := h.le p a _ mem
    cases now.symm.trans marked
    exact (lt here).false
  refine ⟨fun p q r index one two => ?_, fun p r index mem => ?_, nofun⟩
  · simp only [List.mem_append, List.mem_singleton] at one two
    obtain one | ⟨⟨⟩⟩ := one
    · obtain two | ⟨⟨⟩⟩ := two
      · exact h.once p q r index one two
      · exact absurd one (new p)
    · obtain two | ⟨⟨⟩⟩ := two
      · exact absurd two (new q)
      · rfl
  · obtain mem | same := List.mem_append.1 mem
    · obtain ⟨b, marked, le, -⟩ := h.le p r index mem
      exact ⟨b, marked, le, nofun⟩
    · cases List.mem_singleton.1 same
      exact ⟨_, now, le_rfl, nofun⟩

theorem step (h : Settled events s) (marked : Marked s) (taken : QuietStep s e t) :
    Settled (events ++ [e]) t := by
  obtain ⟨taken, quiet⟩ := taken
  cases taken with
  | onRtnData a => exact h.count a (quiet a _ rfl)
  | subDepth10 a idle => exact h.subscribe marked a idle
  | began => exact h.unmarked nofun rfl rfl
  | skip => exact h.unmarked nofun rfl rfl
  | test => exact h.unmarked nofun rfl rfl
  | bookmark phase => exact h.bookmark marked phase
  | getCurNull => exact h.unmarked nofun rfl rfl
  | @getCurTest a todo phase pos =>
      have same : s.phase.fetching = some a := congrArg Phase.fetching phase
      refine h.concat nofun (fun r b before => ⟨b, before, le_rfl, fun now => .inl ?_⟩) ?_
      · exact same.trans now
      · exact fun r now => h.fetching r (same.trans now)
  | getCur phase => exact h.getCur phase
  | ended => exact h.unmarked nofun rfl rfl

end Settled

/-- No update is fetched in two passes, when none is counted between a bookmark and the end of
`get_cur`. -/
theorem fetchedOnce_of_quiet {currentIndex : R → Nat}
    (run : Run QuietStep (.start currentIndex) events s) : FetchedOnce events := by
  have known : Marked s ∧ Settled events s := by
    refine run.invariant (I := fun events s => Marked s ∧ Settled events s) ?_ ?_
    · exact ⟨.start currentIndex, .start currentIndex⟩
    · exact fun h taken => ⟨h.1.step taken.1, h.2.step h.1 taken⟩
  exact known.2.once

/-- Every pass fetches the latest updates, and no two passes fetch the same one when none is counted
between a bookmark and the end of `get_cur`. -/
theorem fetches_latest_once {currentIndex : R → Nat}
    (run : Run Step (.start currentIndex) events s) :
    FetchesLatest events ∧
      (Run QuietStep (.start currentIndex) events s → FetchedOnce events) :=
  ⟨fetchesLatest_of_run run, fetchedOnce_of_quiet⟩

/-- One update and two passes. -/
def onePass : List (Event Unit) :=
  [.subscribed (), .counted () 1, .began 1, .read (), .read (), .read (), .fetched 1 () 1, .ended 1,
    .began 2, .read (), .ended 2]

/-- The only subscription. -/
theorem mem_singleton_iff_marked (s : State Unit) (r : Unit) :
    r ∈ [()] ↔ (s.mark ()).mDepth10 r ≠ none := by
  simp

theorem onePass_run : ∃ s, Run QuietStep (.start fun _ => 0) onePass s :=
  ⟨_, .head ⟨.subDepth10 () rfl, fun _ _ => nofun⟩ <|
    .head ⟨.onRtnData (), fun _ _ _ => nofun⟩ <|
    .head ⟨.began rfl (List.nodup_singleton ()) (mem_singleton_iff_marked _), fun _ _ => nofun⟩ <|
    .head ⟨.test rfl (by decide), fun _ _ => nofun⟩ <|
    .head ⟨.bookmark rfl, fun _ _ => nofun⟩ <|
    .head ⟨.getCurTest rfl (by decide), fun _ _ => nofun⟩ <|
    .head ⟨.getCur rfl, fun _ _ => nofun⟩ <|
    .head ⟨.ended rfl, fun _ _ => nofun⟩ <|
    .head ⟨.began rfl (List.nodup_singleton ()) (mem_singleton_iff_marked _), fun _ _ => nofun⟩ <|
    .head ⟨.skip rfl rfl, fun _ _ => nofun⟩ <|
    .single ⟨.ended rfl, fun _ _ => nofun⟩⟩

theorem fetches_latest_once_onePass : FetchesLatest onePass ∧ FetchedOnce onePass := by
  obtain ⟨s, quiet⟩ := onePass_run
  have run : Run Step (.start fun _ => 0) onePass s := by
    simpa using quiet.map (f := id) And.left
  exact ⟨(fetches_latest_once run).1, (fetches_latest_once run).2 quiet⟩

/-- Two updates, the second one between the bookmark and `get_cur`. -/
def twice : List (Event Unit) :=
  [.subscribed (), .began 1, .counted () 1, .read (), .read (), .counted () 2, .read (),
    .fetched 1 () 2, .ended 1, .began 2, .read (), .read (), .read (), .fetched 2 () 2, .ended 2]

theorem twice_run : ∃ s, Run Step (.start fun _ => 0) twice s :=
  ⟨_, .head (.subDepth10 () rfl) <|
    .head (.began rfl (List.nodup_singleton ()) (mem_singleton_iff_marked _)) <|
    .head (.onRtnData ()) <| .head (.test rfl (by decide)) <| .head (.bookmark rfl) <|
    .head (.onRtnData ()) <| .head (.getCurTest rfl (by decide)) <| .head (.getCur rfl) <|
    .head (.ended rfl) <|
    .head (.began rfl (List.nodup_singleton ()) (mem_singleton_iff_marked _)) <|
    .head (.test rfl (by decide)) <| .head (.bookmark rfl) <|
    .head (.getCurTest rfl (by decide)) <| .head (.getCur rfl) <| .single (.ended rfl)⟩

/-- The second update is fetched in both passes. -/
theorem not_fetchedOnce :
    ¬∀ (events : List (Event Unit)) (s : State Unit), Run Step (.start fun _ => 0) events s →
      FetchesLatest events ∧ FetchedOnce events := by
  intro claimed
  obtain ⟨s, run⟩ := twice_run
  have once := (claimed twice s run).2
  exact absurd (once 1 2 () 2 (by simp [twice]) (by simp [twice])) (by decide)

/-! ## An update that comes in between -/

/-- The visit of a record with a new update, when nothing else happens. -/
theorem fetch_of_new {todo : List R} (visit : s.phase = .visit (r :: todo))
    (new : s.mDepth10 r ≠ some (s.currentIndex r)) (pos : 1 ≤ s.currentIndex r) :
    Run Step s [.read r, .read r, .read r, .fetched s.pass r (s.currentIndex r)]
      ((s.mark r).goto (.visit todo)) :=
  .head (.test visit new) <| .head (.bookmark rfl) <| .head (.getCurTest rfl pos) <|
    .single (.getCur rfl)

/-- What a pass leaves as it is: all but the bookmarks of the records that it visits. -/
structure Kept (visited : List R) (s t : State R) : Prop where
  currentIndex : t.currentIndex = s.currentIndex
  pass : t.pass = s.pass
  mDepth10 : ∀ r, r ∉ visited → t.mDepth10 r = s.mDepth10 r

theorem exists_visit (a : R) (todo : List R) (visit : s.phase = .visit (a :: todo)) :
    ∃ later t, Run Step s later t ∧ t.phase = .visit todo ∧ Kept [a] s t := by
  by_cases same : s.mDepth10 a = some (s.currentIndex a)
  · exact ⟨_, _, .single (.skip visit same), rfl, rfl, rfl, fun _ _ => rfl⟩
  have kept : Kept [a] s ((s.mark a).goto (.visit todo)) := by
    refine ⟨rfl, rfl, fun r other => State.mark_of_ne s ?_⟩
    simpa using other
  by_cases pos : 1 ≤ s.currentIndex a
  · exact ⟨_, _, fetch_of_new visit same pos, rfl, kept⟩
  · exact ⟨_, _, .head (.test visit same) <| .head (.bookmark rfl) <|
      .single (.getCurNull rfl (Nat.not_le.1 pos)), rfl, kept⟩

theorem exists_visits (first todo : List R) (visit : s.phase = .visit (first ++ todo)) :
    ∃ later t, Run Step s later t ∧ t.phase = .visit todo ∧ Kept first s t := by
  induction first generalizing s with
  | nil => exact ⟨[], s, .refl, visit, rfl, rfl, fun _ _ => rfl⟩
  | cons a first ih =>
      obtain ⟨one, u, run, now, kept⟩ := exists_visit a (first ++ todo) visit
      obtain ⟨more, t, rest, final, kept'⟩ := ih now
      refine ⟨one ++ more, t, run.trans rest, final, ?_, ?_, fun r other => ?_⟩
      · exact kept'.currentIndex.trans kept.currentIndex
      · exact kept'.pass.trans kept.pass
      · rw [List.mem_cons, not_or] at other
        exact (kept'.mDepth10 r other.2).trans (kept.mDepth10 r (by simpa using other.1))

/-- A pass can begin, and visits no record twice. -/
structure Listed (s : State R) : Prop where
  all : ∃ todo : List R, todo.Nodup ∧ ∀ r, r ∈ todo ↔ s.mDepth10 r ≠ none
  nodup : s.phase.remaining.Nodup
  subscribed : ∀ r ∈ s.phase.remaining, s.mDepth10 r ≠ none

namespace Listed

theorem mark (h : Listed s) (a : R) :
    ∃ todo : List R, todo.Nodup ∧ ∀ r, r ∈ todo ↔ (s.mark a).mDepth10 r ≠ none := by
  obtain ⟨todo, nodup, all⟩ := h.all
  refine ⟨todo.insert a, nodup.insert, fun r => ?_⟩
  by_cases same : r = a
  · subst same
    simp
  · simp [same, all]

omit [DecidableEq R] in
/-- A read of the pass, after which at most the record is done. -/
theorem read {phase : Phase R} (h : Listed s) (at_phase : s.phase = phase)
    (fewer : t.phase.remaining.Sublist phase.remaining) (same : t.mDepth10 = s.mDepth10) :
    Listed t := by
  have nodup := h.nodup
  have subscribed := h.subscribed
  rw [at_phase] at nodup subscribed
  refine ⟨by simpa only [same] using h.all, nodup.sublist fewer, fun r mem => ?_⟩
  rw [same]
  exact subscribed r (fewer.mem mem)

theorem step (h : Listed s) (taken : Step s e t) : Listed t := by
  cases taken with
  | onRtnData a => exact ⟨h.all, h.nodup, h.subscribed⟩
  | subDepth10 a _ =>
      exact ⟨h.mark a, h.nodup, fun r mem => s.mark_ne_none (h.subscribed r mem)⟩
  | began _ nodup all => exact ⟨h.all, nodup, fun r mem => (all r).1 mem⟩
  | skip visit _ => exact h.read visit (List.sublist_cons_self _ _) rfl
  | test visit _ => exact h.read visit (List.Sublist.refl _) rfl
  | @bookmark a todo phase =>
      have next := h.read (t := s.goto (.getCurTest a todo)) phase (List.Sublist.refl _) rfl
      exact ⟨h.mark a, next.nodup, fun r mem => s.mark_ne_none (next.subscribed r mem)⟩
  | getCurNull phase _ => exact h.read phase (List.sublist_cons_self _ _) rfl
  | getCurTest phase _ => exact h.read phase (List.Sublist.refl _) rfl
  | getCur phase => exact h.read phase (List.sublist_cons_self _ _) rfl
  | ended visit => exact h.read visit (List.Sublist.refl _) rfl

theorem of_run {currentIndex : R → Nat} (run : Run Step (.start currentIndex) events s) :
    Listed s := by
  refine run.invariant (I := fun _ s => Listed s) ⟨⟨[], ?_⟩, List.nodup_nil, nofun⟩ step
  simp [State.start]

end Listed

/-- Where `poll_depth10` is about to look for the update: it takes the newest one. -/
theorem exists_getCur (fetching : s.phase.fetching = some r) (pos : 1 ≤ s.currentIndex r) :
    ∃ later todo, s.phase.remaining = r :: todo ∧
      Run Step s (later ++ [.fetched s.pass r (s.currentIndex r)]) (s.goto (.visit todo)) := by
  cases phase : s.phase with
  | idle => simp [phase, Phase.fetching] at fetching
  | visit todo => simp [phase, Phase.fetching] at fetching
  | bookmark a todo => simp [phase, Phase.fetching] at fetching
  | getCurTest a todo =>
      rw [phase] at fetching
      cases fetching
      exact ⟨[.read r], todo, rfl, .head (.getCurTest phase pos) (.single (.getCur rfl))⟩
  | getCurIndex a todo =>
      rw [phase] at fetching
      cases fetching
      exact ⟨[], todo, rfl, .single (.getCur phase)⟩

/-- A pass fetches the newest update of a record whose bookmark has another number. -/
theorem exists_pass (listed : Listed s) (idle : s.phase = .idle) (subscribed : s.mDepth10 r ≠ none)
    (new : s.mDepth10 r ≠ some (s.currentIndex r)) (pos : 1 ≤ s.currentIndex r) :
    ∃ later t, .fetched (s.pass + 1) r (s.currentIndex r) ∈ later ∧ Run Step s later t ∧
      t.currentIndex = s.currentIndex := by
  obtain ⟨todo, nodup, all⟩ := listed.all
  obtain ⟨first, rest, rfl⟩ := List.append_of_mem ((all r).2 subscribed)
  have visited : r ∉ first := fun mem =>
    (List.nodup_append.1 nodup).2.2 r mem r List.mem_cons_self rfl
  obtain ⟨one, u, run, visit, kept⟩ := exists_visits
    (s := { s with phase := .visit (first ++ r :: rest), pass := s.pass + 1 }) first (r :: rest) rfl
  have same : u.currentIndex r = s.currentIndex r := congrFun kept.currentIndex r
  have fetch := fetch_of_new visit (by rwa [kept.mDepth10 r visited, same]) (by rwa [same])
  rw [same, kept.pass] at fetch
  exact ⟨_, _, by simp, .head (.began idle nodup all) (run.trans fetch), kept.currentIndex⟩

/-- After any update that is counted between a bookmark and the end of `get_cur`, two passes may
fetch the same update, although nothing else is counted. -/
theorem exists_fetched_twice {currentIndex : R → Nat}
    (run : Run Step (.start currentIndex) events s) (fetching : s.phase.fetching = some r) :
    ∃ later t, Run Step (s.count r) later t ∧ t.currentIndex = (s.count r).currentIndex ∧
      ¬FetchedOnce later := by
  have listed := Listed.of_run run
  obtain ⟨one, todo, remaining, getCur⟩ :=
    exists_getCur (s := s.count r) fetching (by simp)
  have last : r ∉ todo := by
    have nodup := listed.nodup
    rw [show s.phase.remaining = r :: todo from remaining] at nodup
    exact (List.nodup_cons.1 nodup).1
  obtain ⟨two, u, visits, visit, kept⟩ := exists_visits
    (s := (s.count r).goto (.visit todo)) todo [] (by simp [State.goto])
  -- The bookmark is still that of the older update.
  have bookmark : u.mDepth10 r = s.mDepth10 r := kept.mDepth10 r last
  have newest : u.currentIndex r = s.currentIndex r + 1 :=
    (congrFun kept.currentIndex r).trans s.count_self
  have subscribed : s.mDepth10 r ≠ none :=
    listed.subscribed r (by rw [show s.phase.remaining = r :: todo from remaining]; simp)
  have new : s.mDepth10 r ≠ some (s.currentIndex r + 1) := by
    intro ahead
    have le := (Sound.of_run run).marked.le r _ ahead
    omega
  have pos : 1 ≤ u.currentIndex r := by omega
  have ended := (getCur.trans visits).snoc (.ended visit)
  have again := Listed.of_run ((run.snoc (.onRtnData r)).trans ended)
  obtain ⟨three, t, fetched, pass, same⟩ := exists_pass (s := u.goto .idle) (r := r) again rfl
    (by rwa [← bookmark] at subscribed) (by rwa [← newest, ← bookmark] at new) pos
  refine ⟨_, t, ended.trans pass, same.trans kept.currentIndex, fun once => ?_⟩
  have twice := once (s.count r).pass (u.pass + 1) r (s.currentIndex r + 1) ?_ ?_
  · rw [kept.pass] at twice
    exact absurd twice (Nat.ne_of_lt (Nat.lt_succ_self _))
  · simp
  · rw [← newest]
    exact List.mem_append_right _ fetched

end RazorCrypto.Strategy
