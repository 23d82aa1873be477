import Mathlib.Logic.Function.Basic
import RazorCrypto.Foundation.Transition

/-!
# The lock of the latency statistics

`init_conn_stats`, `reset_conn_stats`, `update_latency_stats` and the end of `on_stop` lock
`m_stats_mutex` once each. The print thread locks it in `print_latency_stats` and again in
`print_product_stats`, which it calls with the lock held. The mutex is not recursive: from its
first print on, the thread waits for itself, and with it everybody else.

What the functions do to the statistics under the lock is left out: no lock and no join depends
on it. Where two calls of `on_stop` join at a time, both return when the thread has ended.
-/

universe u

namespace RazorCrypto.BinanceMd.Statistics

open Transition

variable {κ : Type u}

/-- The products that `print_latency_stats` prints. -/
inductive Product
  | spot
  | ubase
deriving DecidableEq

/-- The print thread: before its loop test, asleep, before the lock of `print_latency_stats`,
with that lock before the one of `print_product_stats`, behind the latter, and before the end of
`print_latency_stats`. -/
inductive Printer
  | test
  | sleeping
  | locking
  | lockingProduct (product : Product)
  | printing (product : Product)
  | footer
  | finished
deriving DecidableEq

/-- The functions that lock once and do nothing else that could wait. -/
inductive StatsCall
  | initConnStats
  | resetConnStats
  | updateLatencyStats
deriving DecidableEq

/-- Any other thread: between two calls, in one of the simple functions, or in `on_stop`. -/
inductive Caller
  | idle
  | locking (call : StatsCall)
  | inside (call : StatsCall)
  | stopping
  | testingJoinable
  | joining
  | closing
  | lockingStop
  | clearing
deriving DecidableEq

/-- A thread, as the owner of the mutex. -/
inductive Thread (κ : Type u)
  | printer
  | caller (i : κ)
deriving DecidableEq

structure State (κ : Type u) where
  mPrintRunning : Bool
  joinable : Bool
  owner : Option (Thread κ)
  printer : Printer
  callers : κ → Caller

/-- `start_latency_print_timer` has just started the print thread. -/
def State.initial : State κ := ⟨true, true, none, .test, fun _ => .idle⟩

/-- What is seen of a step: a loop test of the print thread that finds `m_print_running` set. -/
inductive Event
  | silent
  | passedTest
deriving DecidableEq

variable [DecidableEq κ]

def State.withCaller (s : State κ) (i : κ) (caller : Caller) : State κ :=
  { s with callers := Function.update s.callers i caller }

/-- One step of one thread. To lock takes a free mutex. -/
inductive Step : State κ → Event → State κ → Prop
  -- The loop of `start_latency_print_timer`.
  | passTest {s} (test : s.printer = .test) (running : s.mPrintRunning = true) :
      Step s .passedTest { s with printer := .sleeping }
  | failTest {s} (test : s.printer = .test) (stopped : s.mPrintRunning = false) :
      Step s .silent { s with printer := .finished }
  | wake {s} (sleeping : s.printer = .sleeping) : Step s .silent { s with printer := .locking }
  -- `print_latency_stats` and `print_product_stats`.
  | lockPrint {s} (locking : s.printer = .locking) (free : s.owner = none) :
      Step s .silent { s with owner := some .printer, printer := .lockingProduct .spot }
  | lockProduct {s p} (locking : s.printer = .lockingProduct p) (free : s.owner = none) :
      Step s .silent { s with owner := some .printer, printer := .printing p }
  | leaveSpot {s} (printing : s.printer = .printing .spot) :
      Step s .silent { s with owner := none, printer := .lockingProduct .ubase }
  | leaveUbase {s} (printing : s.printer = .printing .ubase) :
      Step s .silent { s with owner := none, printer := .footer }
  | leavePrint {s} (footer : s.printer = .footer) :
      Step s .silent { s with owner := none, printer := .test }
  -- `init_conn_stats`, `reset_conn_stats` and `update_latency_stats`.
  | call {s i} (idle : s.callers i = .idle) (call : StatsCall) :
      Step s .silent (s.withCaller i (.locking call))
  | lockCall {s i call} (locking : s.callers i = .locking call) (free : s.owner = none) :
      Step s .silent { s.withCaller i (.inside call) with owner := some (.caller i) }
  | leaveCall {s i call} (inside : s.callers i = .inside call) :
      Step s .silent { s.withCaller i .idle with owner := none }
  -- `on_stop`.
  | onStop {s i} (idle : s.callers i = .idle) : Step s .silent (s.withCaller i .stopping)
  | clearRunning {s i} (stopping : s.callers i = .stopping) :
      Step s .silent { s.withCaller i .testingJoinable with mPrintRunning := false }
  | isJoinable {s i} (testing : s.callers i = .testingJoinable) (joinable : s.joinable = true) :
      Step s .silent (s.withCaller i .joining)
  | notJoinable {s i} (testing : s.callers i = .testingJoinable) (joined : s.joinable = false) :
      Step s .silent (s.withCaller i .closing)
  | join {s i} (joining : s.callers i = .joining) (finished : s.printer = .finished) :
      Step s .silent { s.withCaller i .closing with joinable := false }
  | closeAll {s i} (closing : s.callers i = .closing) :
      Step s .silent (s.withCaller i .lockingStop)
  | lockStop {s i} (locking : s.callers i = .lockingStop) (free : s.owner = none) :
      Step s .silent { s.withCaller i .clearing with owner := some (.caller i) }
  | leaveStop {s i} (clearing : s.callers i = .clearing) :
      Step s .silent { s.withCaller i .idle with owner := none }

/-- A step other than a loop test that finds `m_print_running` set. -/
def QuietStep (s : State κ) (e : Event) (t : State κ) : Prop := Step s e t ∧ e ≠ .passedTest

/-- The thread waits to lock the mutex. -/
def Waits (s : State κ) : Thread κ → Prop
  | .printer => s.printer = .locking ∨ ∃ p, s.printer = .lockingProduct p
  | .caller i => (∃ call, s.callers i = .locking call) ∨ s.callers i = .lockingStop

/-- No thread waits for a mutex that it holds, and each call in progress can complete. -/
structure DeadlockFree (s : State κ) : Prop where
  noSelfWait : ∀ t, Waits s t → s.owner ≠ some t
  completes : ∀ i, s.callers i ≠ .idle → ∃ es t, Run Step s es t ∧ t.callers i = .idle

/-! ## Who owns the mutex -/

/-- The thread is inside a function with the mutex. -/
def Caller.holds : Caller → Bool
  | inside _ | clearing => true
  | _ => false

/-- The thread cleared `m_print_running` and has not joined yet. -/
def Caller.cleared : Caller → Bool
  | testingJoinable | joining => true
  | _ => false

/-- The print thread runs outside `print_latency_stats`. -/
def Printer.outside : Printer → Bool
  | test | sleeping | locking | finished => true
  | _ => false

/-- What holds in each reachable state: the owner of the mutex is the one thread inside a function
that locked it, and the print thread does not come past its second lock. -/
structure Ordered (s : State κ) : Prop where
  printer : s.printer.outside = true ∨ s.printer = .lockingProduct .spot
  printerOwns : s.printer = .lockingProduct .spot ↔ s.owner = some .printer
  callerOwns : ∀ i, (s.callers i).holds = true ↔ s.owner = some (.caller i)
  cleared : ∀ i, (s.callers i).cleared = true → s.mPrintRunning = false

omit [DecidableEq κ] in
theorem initial_ordered : Ordered (State.initial : State κ) :=
  ⟨.inl rfl, ⟨nofun, nofun⟩, fun _ => ⟨nofun, nofun⟩, fun _ => nofun⟩

@[simp] theorem withCaller_self (s : State κ) (i : κ) (c : Caller) :
    (s.withCaller i c).callers i = c :=
  Function.update_self ..

theorem withCaller_of_ne (s : State κ) {i j : κ} (ne : j ≠ i) (c : Caller) :
    (s.withCaller i c).callers j = s.callers j :=
  Function.update_of_ne ne ..

namespace Ordered

variable {s t : State κ} {i : κ} {c : Caller} {e : Event}

omit [DecidableEq κ] in
/-- The print thread never reaches the code behind its second lock. -/
theorem not_behind (h : Ordered s) (p : Product) :
    s.printer ≠ .printing p ∧ s.printer ≠ .footer := by
  obtain outside | locking := h.printer
  · constructor <;> intro eq <;> simp [eq, Printer.outside] at outside
  · simp [locking]

theorem cleared_withCaller (h : Ordered s) (flag : c.cleared = true → s.mPrintRunning = false)
    (j : κ) (cleared : ((s.withCaller i c).callers j).cleared = true) :
    s.mPrintRunning = false := by
  by_cases same : j = i
  · subst same
    rw [withCaller_self] at cleared
    exact flag cleared
  · rw [withCaller_of_ne s same] at cleared
    exact h.cleared j cleared

/-- A thread goes on without a change of the owner. -/
theorem callerOwns_withCaller (h : Ordered s) (same : c.holds = (s.callers i).holds) (j : κ) :
    ((s.withCaller i c).callers j).holds = true ↔ s.owner = some (.caller j) := by
  rw [← h.callerOwns j]
  by_cases eq : j = i
  · subst eq
    rw [withCaller_self, same]
  · rw [withCaller_of_ne s eq]

theorem withCaller (h : Ordered s) (same : c.holds = (s.callers i).holds)
    (flag : c.cleared = true → s.mPrintRunning = false) : Ordered (s.withCaller i c) :=
  ⟨h.printer, h.printerOwns, h.callerOwns_withCaller same, h.cleared_withCaller flag⟩

theorem lock (h : Ordered s) (free : s.owner = none) (holds : c.holds = true)
    (plain : c.cleared = false) :
    Ordered { s.withCaller i c with owner := some (.caller i) } := by
  refine ⟨h.printer, ?_, ?_, h.cleared_withCaller (by rw [plain]; exact nofun)⟩
  · have out : s.printer ≠ .lockingProduct .spot := by
      rw [Ne, h.printerOwns, free]
      exact nofun
    exact ⟨fun eq => absurd eq out, nofun⟩
  · intro j
    by_cases eq : j = i
    · subst eq
      simp [holds]
    · have out : ¬(s.callers j).holds = true := by
        rw [h.callerOwns, free]
        exact nofun
      have other : (s.withCaller i c).callers j = s.callers j := withCaller_of_ne s eq c
      simp [other, out, Ne.symm eq]

theorem unlock (h : Ordered s) (holds : (s.callers i).holds = true) (left : c.holds = false)
    (plain : c.cleared = false) : Ordered { s.withCaller i c with owner := none } := by
  have owned : s.owner = some (.caller i) := (h.callerOwns i).1 holds
  refine ⟨h.printer, ?_, ?_, h.cleared_withCaller (by rw [plain]; exact nofun)⟩
  · have out : s.printer ≠ .lockingProduct .spot := by
      rw [Ne, h.printerOwns, owned]
      exact nofun
    exact ⟨fun eq => absurd eq out, nofun⟩
  · intro j
    by_cases eq : j = i
    · subst eq
      simp [left]
    · have out : ¬(s.callers j).holds = true := by
        rw [h.callerOwns, owned]
        simpa using Ne.symm eq
      have other : (s.withCaller i c).callers j = s.callers j := withCaller_of_ne s eq c
      simp [other, out]

omit [DecidableEq κ] in
/-- The print thread goes on outside `print_latency_stats`. -/
theorem withPrinter (h : Ordered s) {p : Printer} (before : s.printer.outside = true)
    (after : p.outside = true) : Ordered { s with printer := p } := by
  have unowned : s.owner ≠ some .printer := by
    rw [Ne, ← h.printerOwns]
    intro eq
    simp [eq, Printer.outside] at before
  refine ⟨.inl after, ⟨fun eq => ?_, fun owned => absurd owned unowned⟩, h.callerOwns, h.cleared⟩
  cases eq
  cases after

theorem step (h : Ordered s) (taken : Step s e t) : Ordered t := by
  have out : ∀ {i c}, s.callers i = c → (s.callers i).holds = c.holds := by
    rintro i c rfl
    rfl
  cases taken with
  | passTest test running => exact h.withPrinter (by rw [test]; rfl) rfl
  | failTest test stopped => exact h.withPrinter (by rw [test]; rfl) rfl
  | wake sleeping => exact h.withPrinter (by rw [sleeping]; rfl) rfl
  | lockPrint locking free =>
      refine ⟨.inr rfl, ⟨fun _ => rfl, fun _ => rfl⟩, fun j => ?_, h.cleared⟩
      have unheld : ¬(s.callers j).holds = true := by
        rw [h.callerOwns, free]
        exact nofun
      exact ⟨fun holds => absurd holds unheld, nofun⟩
  | lockProduct locking free =>
      -- The first of these locks is never free: the thread owns it.
      obtain outside | spot := h.printer
      · simp [locking, Printer.outside] at outside
      · rw [h.printerOwns, free] at spot
        cases spot
  | leaveSpot printing => exact absurd printing (h.not_behind _).1
  | leaveUbase printing => exact absurd printing (h.not_behind _).1
  | leavePrint footer => exact absurd footer (h.not_behind .spot).2
  | call idle call => exact h.withCaller (out idle).symm nofun
  | lockCall locking free => exact h.lock free rfl rfl
  | leaveCall inside => exact h.unlock (out inside) rfl rfl
  | onStop idle => exact h.withCaller (out idle).symm nofun
  | clearRunning stopping =>
      exact ⟨h.printer, h.printerOwns, h.callerOwns_withCaller (out stopping).symm, fun _ _ => rfl⟩
  | isJoinable testing joinable =>
      exact h.withCaller (out testing).symm fun _ =>
        h.cleared _ ((congrArg Caller.cleared testing).trans rfl)
  | notJoinable testing joined => exact h.withCaller (out testing).symm nofun
  | join joining finished =>
      have next := h.withCaller (c := .closing) (out joining).symm nofun
      exact ⟨next.printer, next.printerOwns, next.callerOwns, next.cleared⟩
  | closeAll closing => exact h.withCaller (out closing).symm nofun
  | lockStop locking free => exact h.lock free rfl rfl
  | leaveStop clearing => exact h.unlock (out clearing) rfl rfl

/-- While the print thread is outside, the owner of the mutex can leave; others stay. -/
theorem release (h : Ordered s) (outside : s.printer ≠ .lockingProduct .spot) :
    ∃ es t, Run QuietStep s es t ∧ t.owner = none ∧ t.printer = s.printer ∧
      ∀ i, (s.callers i).holds = false → t.callers i = s.callers i := by
  cases owned : s.owner with
  | none => exact ⟨[], s, .refl, owned, rfl, fun _ _ => rfl⟩
  | some owner =>
    cases owner with
    | printer => exact absurd (h.printerOwns.2 owned) outside
    | caller j =>
      have holds : (s.callers j).holds = true := (h.callerOwns j).2 owned
      have kept : ∀ i, (s.callers i).holds = false →
          (s.withCaller j .idle).callers i = s.callers i := by
        intro i out
        refine withCaller_of_ne s ?_ .idle
        rintro rfl
        rw [out] at holds
        cases holds
      cases pc : s.callers j with
      | inside call => exact ⟨_, _, .single ⟨.leaveCall pc, nofun⟩, rfl, rfl, kept⟩
      | clearing => exact ⟨_, _, .single ⟨.leaveStop pc, nofun⟩, rfl, rfl, kept⟩
      | _ => simp [pc, Caller.holds] at holds

end Ordered

/-! ## Before the first print -/

/-- The print thread has not passed its loop test, or ended there. -/
structure Quiet (s : State κ) : Prop extends Ordered s where
  early : s.printer = .test ∨ s.printer = .finished

/-- Without another test that succeeds, the call of the thread can end. -/
def Completes (s : State κ) (i : κ) : Prop :=
  ∃ es t, Run QuietStep s es t ∧ t.callers i = .idle

namespace Quiet

variable {s t : State κ} {i : κ} {e : Event}

theorem step (h : Quiet s) (taken : QuietStep s e t) : Quiet t := by
  refine ⟨h.toOrdered.step taken.1, ?_⟩
  obtain ⟨taken, quiet⟩ := taken
  have busy : s.printer ≠ .sleeping ∧ s.printer ≠ .locking ∧
      (∀ p, s.printer ≠ .lockingProduct p) := by
    obtain test | finished := h.early
    · simp [test]
    · simp [finished]
  cases taken with
  | passTest => exact absurd rfl quiet
  | failTest test stopped => exact .inr rfl
  | wake sleeping => exact absurd sleeping busy.1
  | lockPrint locking => exact absurd locking busy.2.1
  | lockProduct locking => exact absurd locking (busy.2.2 _)
  | leaveSpot printing => exact absurd printing (h.not_behind _).1
  | leaveUbase printing => exact absurd printing (h.not_behind _).1
  | leavePrint footer => exact .inl rfl
  | _ => exact h.early

theorem run {es : List Event} (h : Quiet s) (run : Run QuietStep s es t) : Quiet t :=
  run.invariant (I := fun _ t => Quiet t) h fun before taken => before.step taken

theorem release (h : Quiet s) (out : (s.callers i).holds = false) :
    ∃ es t, Run QuietStep s es t ∧ t.owner = none ∧ t.callers i = s.callers i := by
  have outside : s.printer ≠ .lockingProduct .spot := by
    obtain test | finished := h.early
    · simp [test]
    · simp [finished]
  obtain ⟨es, t, run, free, -, kept⟩ := h.toOrdered.release outside
  exact ⟨es, t, run, free, kept i out⟩

theorem completes_of_run {es : List Event} (first : Run QuietStep s es t)
    (rest : Completes t i) : Completes s i := by
  obtain ⟨fs, u, run, idle⟩ := rest
  exact ⟨es ++ fs, u, first.trans run, idle⟩

theorem completes_of_step (taken : Step s .silent t) (rest : Completes t i) : Completes s i :=
  completes_of_run (.single ⟨taken, nofun⟩) rest

theorem completes_idle (idle : s.callers i = .idle) : Completes s i := ⟨[], s, .refl, idle⟩

theorem completes_inside {call : StatsCall} (inside : s.callers i = .inside call) :
    Completes s i :=
  completes_of_step (.leaveCall inside) (completes_idle (withCaller_self s i .idle))

theorem completes_clearing (clearing : s.callers i = .clearing) : Completes s i :=
  completes_of_step (.leaveStop clearing) (completes_idle (withCaller_self s i .idle))

theorem completes_locking (h : Quiet s) {call : StatsCall} (locking : s.callers i = .locking call) :
    Completes s i := by
  obtain ⟨es, t, run, free, kept⟩ := h.release (i := i) (by rw [locking]; rfl)
  refine completes_of_run run (completes_of_step (.lockCall (kept.trans locking) free) ?_)
  exact completes_inside (withCaller_self t i (.inside call))

theorem completes_lockingStop (h : Quiet s) (locking : s.callers i = .lockingStop) :
    Completes s i := by
  obtain ⟨es, t, run, free, kept⟩ := h.release (i := i) (by rw [locking]; rfl)
  refine completes_of_run run (completes_of_step (.lockStop (kept.trans locking) free) ?_)
  exact completes_clearing (withCaller_self t i .clearing)

theorem completes_closing (h : Quiet s) (closing : s.callers i = .closing) : Completes s i := by
  have taken : Step s .silent (s.withCaller i .lockingStop) := .closeAll closing
  exact completes_of_step taken
    ((h.step ⟨taken, nofun⟩).completes_lockingStop (withCaller_self s i .lockingStop))

theorem completes_joining_finished (h : Quiet s) (joining : s.callers i = .joining)
    (finished : s.printer = .finished) : Completes s i := by
  have taken : Step s .silent { s.withCaller i .closing with joinable := false } :=
    .join joining finished
  exact completes_of_step taken
    ((h.step ⟨taken, nofun⟩).completes_closing (withCaller_self s i .closing))

/-- The print thread, still before its loop test, ends by it: the flag is cleared. -/
theorem completes_joining (h : Quiet s) (joining : s.callers i = .joining) : Completes s i := by
  obtain test | finished := h.early
  · have stopped : s.mPrintRunning = false := h.cleared i (by rw [joining]; rfl)
    have taken : Step s .silent { s with printer := .finished } := .failTest test stopped
    exact completes_of_step taken
      ((h.step ⟨taken, nofun⟩).completes_joining_finished joining rfl)
  · exact h.completes_joining_finished joining finished

theorem completes_testingJoinable (h : Quiet s) (testing : s.callers i = .testingJoinable) :
    Completes s i := by
  cases joinable : s.joinable with
  | true =>
    have taken : Step s .silent (s.withCaller i .joining) := .isJoinable testing joinable
    exact completes_of_step taken
      ((h.step ⟨taken, nofun⟩).completes_joining (withCaller_self s i .joining))
  | false =>
    have taken : Step s .silent (s.withCaller i .closing) := .notJoinable testing joinable
    exact completes_of_step taken
      ((h.step ⟨taken, nofun⟩).completes_closing (withCaller_self s i .closing))

theorem completes_stopping (h : Quiet s) (stopping : s.callers i = .stopping) :
    Completes s i := by
  have taken : Step s .silent { s.withCaller i .testingJoinable with mPrintRunning := false } :=
    .clearRunning stopping
  exact completes_of_step taken
    ((h.step ⟨taken, nofun⟩).completes_testingJoinable (withCaller_self s i .testingJoinable))

theorem completes (h : Quiet s) (i : κ) : Completes s i := by
  cases pc : s.callers i with
  | idle => exact completes_idle pc
  | locking call => exact h.completes_locking pc
  | inside call => exact completes_inside pc
  | stopping => exact h.completes_stopping pc
  | testingJoinable => exact h.completes_testingJoinable pc
  | joining => exact h.completes_joining pc
  | closing => exact h.completes_closing pc
  | lockingStop => exact h.completes_lockingStop pc
  | clearing => exact completes_clearing pc

omit [DecidableEq κ] in
/-- No owner waits: the owner is inside a function, behind its only lock. -/
theorem noSelfWait (h : Quiet s) (t : Thread κ) (waits : Waits s t) : s.owner ≠ some t := by
  cases t with
  | printer =>
      obtain test | finished := h.early
      · simp [Waits, test] at waits
      · simp [Waits, finished] at waits
  | caller i =>
      rw [Ne, ← h.callerOwns i]
      obtain ⟨call, locking⟩ | locking := waits
      · simp [locking, Caller.holds]
      · simp [locking, Caller.holds]

theorem deadlockFree (h : Quiet s) : DeadlockFree s := by
  refine ⟨h.noSelfWait, fun i _ => ?_⟩
  obtain ⟨fs, t, rest, idle⟩ := h.completes i
  exact ⟨_, t, rest.map (f := id) fun taken => taken.1, idle⟩

end Quiet

/-! ## After the first print -/

section History

variable {s t : State κ} {es : List Event} {e : Event}

theorem reachable_ordered (run : Run Step State.initial es s) : Ordered s :=
  run.invariant (I := fun _ t => Ordered t) initial_ordered fun before taken => before.step taken

/-- The print thread is at its loop test or has ended as long as no test of it succeeded. -/
theorem early_iff (run : Run Step State.initial es s) :
    s.printer = .test ∨ s.printer = .finished ↔ .passedTest ∉ es := by
  refine (run.invariant
    (I := fun es t => Ordered t ∧ (t.printer = .test ∨ t.printer = .finished ↔ .passedTest ∉ es))
    ⟨initial_ordered, by simp [State.initial]⟩ ?_).2
  rintro es s e t ⟨ordered, same⟩ taken
  refine ⟨ordered.step taken, ?_⟩
  cases taken with
  | passTest => simp
  | failTest test stopped => simpa [test] using same
  | wake sleeping => simpa [sleeping] using same
  | lockPrint locking => simpa [locking] using same
  | lockProduct locking => simpa [locking] using same
  | leaveSpot printing => exact absurd printing (ordered.not_behind _).1
  | leaveUbase printing => exact absurd printing (ordered.not_behind _).1
  | leavePrint footer => exact absurd footer (ordered.not_behind .spot).2
  | _ => simpa [State.withCaller] using same

/-- Once past the test, the print thread can always come to wait for itself. -/
theorem Ordered.selfWait_of_locking (h : Ordered s) (locking : s.printer = .locking) :
    ∃ es t, Run QuietStep s es t ∧ Waits t .printer ∧ t.owner = some .printer := by
  obtain ⟨es, t, run, free, same, -⟩ := h.release (by simp [locking])
  exact ⟨es ++ [.silent], _, run.snoc ⟨.lockPrint (same.trans locking) free, nofun⟩,
    .inr ⟨.spot, rfl⟩, rfl⟩

theorem Ordered.selfWait (h : Ordered s) (late : ¬(s.printer = .test ∨ s.printer = .finished)) :
    ∃ es t, Run QuietStep s es t ∧ Waits t .printer ∧ t.owner = some .printer := by
  cases pc : s.printer with
  | test => exact absurd (.inl pc) late
  | finished => exact absurd (.inr pc) late
  | sleeping =>
      have taken : Step s .silent { s with printer := .locking } := .wake pc
      obtain ⟨es, t, run, waits⟩ := (h.step taken).selfWait_of_locking rfl
      exact ⟨.silent :: es, t, run.head ⟨taken, nofun⟩, waits⟩
  | locking => exact h.selfWait_of_locking pc
  | lockingProduct p =>
      obtain outside | spot := h.printer
      · simp [pc, Printer.outside] at outside
      · exact ⟨[], s, .refl, .inr ⟨p, pc⟩, h.printerOwns.1 spot⟩
  | printing p => exact absurd pc (h.not_behind p).1
  | footer => exact absurd pc (h.not_behind .spot).2

/-- The states that a run leads to without a (further) successful test of the print thread are
free of deadlock exactly if no test of it succeeded in the run. -/
theorem deadlockFree_iff (run : Run Step State.initial es s) :
    (∀ fs t, Run QuietStep s fs t → DeadlockFree t) ↔ .passedTest ∉ es := by
  rw [← early_iff run]
  have ordered : Ordered s := reachable_ordered run
  constructor
  · intro free
    by_contra late
    obtain ⟨fs, t, rest, waits, owns⟩ := ordered.selfWait late
    exact (free fs t rest).noSelfWait .printer waits owns
  · intro early fs t rest
    exact (Quiet.run ⟨ordered, early⟩ rest).deadlockFree

end History

/-- A thread calls `on_stop` before the first test, and has cleared the flag. -/
def stopped : State Nat :=
  ⟨false, true, none, .test, Function.update (fun _ => .idle) 0 .testingJoinable⟩

theorem initial_stopped : Run Step State.initial [.silent, .silent] stopped := by
  have first : Step (State.initial : State Nat) .silent (State.initial.withCaller 0 .stopping) :=
    .onStop rfl
  have second := Step.clearRunning (withCaller_self (State.initial : State Nat) 0 .stopping)
  have same : { (State.initial.withCaller 0 .stopping).withCaller 0 .testingJoinable with
      mPrintRunning := false } = stopped := by
    simp [stopped, State.initial, State.withCaller]
  rw [same] at second
  exact (Run.single first).snoc second

theorem deadlockFree_iff_stopped : Run Step State.initial [.silent, .silent] stopped ∧
    ∀ fs t, Run QuietStep stopped fs t → DeadlockFree t :=
  ⟨initial_stopped, (deadlockFree_iff initial_stopped).mpr (by simp)⟩

/-- In `print_product_stats`, with the mutex locked in `print_latency_stats`. -/
def blocked : State Nat :=
  ⟨true, true, some .printer, .lockingProduct .spot, fun _ => .idle⟩

/-- The first print alone suffices: the print thread waits for the mutex that it owns. -/
theorem printer_waits_for_itself :
    Run Step State.initial [.passedTest, .silent, .silent] blocked ∧
      Waits blocked .printer ∧ blocked.owner = some .printer ∧
      ¬∀ es (s : State Nat), Run Step State.initial es s → DeadlockFree s := by
  have run : Run Step (State.initial : State Nat) [.passedTest, .silent, .silent] blocked :=
    ((Run.single (.passTest rfl rfl)).snoc (.wake rfl)).snoc (.lockPrint rfl rfl)
  have waits : Waits blocked .printer := .inr ⟨.spot, rfl⟩
  exact ⟨run, waits, rfl, fun free => (free _ _ run).noSelfWait .printer waits rfl⟩

end RazorCrypto.BinanceMd.Statistics
