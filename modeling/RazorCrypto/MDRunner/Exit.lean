import RazorCrypto.Foundation.Transition

/-!
# Waiting for a signal

`main` waits on a condition variable until `g_should_exit` is set. `signal_handler` sets it and
notifies, but without the mutex, so that both can happen after `main` has read the flag and before
it waits. A notification reaches only a `main` that is waiting.

A handler runs on any thread, also on the one of `main`, and several can be under way.
-/

namespace RazorCrypto.MDRunner.Exit

open Transition

/-- Where `main` is: it is about to read the flag, has read that it is not set, waits, or goes
on to exit. -/
inductive Main
  | reading
  | unset
  | waiting
  | exiting
deriving DecidableEq

/-- `notifying` counts the handlers that have set the flag and are yet to notify. -/
structure State where
  gShouldExit : Bool
  notifying : Nat
  main : Main
deriving DecidableEq

/-- A handler sets the flag, a handler notifies, `main` reads the flag, it starts to wait, and it
wakes up for no reason. -/
inductive Event
  | signal
  | notify
  | read
  | wait
  | wake
deriving DecidableEq

/-- `main` while it loads. -/
def start : State := ⟨false, 0, .reading⟩

inductive Step : State → Event → State → Prop
  | signal {f n m} : Step ⟨f, n, m⟩ .signal ⟨true, n + 1, m⟩
  | notify {f n m} :
      Step ⟨f, n + 1, m⟩ .notify ⟨f, n, if m = .waiting then .reading else m⟩
  | read {f n} : Step ⟨f, n, .reading⟩ .read ⟨f, n, if f then .exiting else .unset⟩
  | wait {f n} : Step ⟨f, n, .unset⟩ .wait ⟨f, n, .waiting⟩
  | wake {f n} : Step ⟨f, n, .waiting⟩ .wake ⟨f, n, .reading⟩

/-- After the last reading of the flag, which no signal preceded, there were signals, and all of
them were notified before `main` started to wait. -/
def Lost (events : List Event) : Prop :=
  ∃ before between, (events = before ++ .read :: between ∨
      events = before ++ .read :: between ++ [.wait]) ∧
    .signal ∉ before ∧ (∀ e ∈ between, e = .signal ∨ e = .notify) ∧ .signal ∈ between ∧
    between.count .notify = between.count .signal

variable {s t : State} {events more before between : List Event} {e : Event}

/-- The last reading of the flag, and the handlers since. -/
structure Unset (before between : List Event) : Prop where
  unsignalled : .signal ∉ before
  unnotified : .notify ∉ before
  handlers : ∀ e ∈ between, e = .signal ∨ e = .notify

theorem Unset.concat (h : Unset before between) (handler : e = .signal ∨ e = .notify) :
    Unset before (between ++ [e]) := by
  refine ⟨h.unsignalled, h.unnotified, ?_⟩
  simp only [List.forall_mem_append, List.forall_mem_singleton]
  exact ⟨h.handlers, handler⟩

/-- What the history says about the state. -/
structure Explains (events : List Event) (s : State) : Prop where
  flag : s.gShouldExit = true ↔ .signal ∈ events
  notifying : s.notifying + events.count .notify = events.count .signal
  unset : s.main = .unset → ∃ before between, events = before ++ .read :: between ∧
    Unset before between
  waiting : s.main = .waiting → ∃ before between after,
    events = before ++ .read :: between ++ .wait :: after ∧ Unset before between ∧
    between.count .notify ≤ between.count .signal ∧ ∀ e ∈ after, e = .signal
  exiting : s.main = .exiting → s.gShouldExit = true

/-- What was signalled and notified since. -/
theorem Unset.count (h : Unset before between) :
    (before ++ .read :: between).count .signal = between.count .signal ∧
      (before ++ .read :: between).count .notify = between.count .notify := by
  simp [List.count_append, List.count_eq_zero_of_not_mem h.unsignalled,
    List.count_eq_zero_of_not_mem h.unnotified]

theorem Explains.start : Explains [] Exit.start := ⟨by simp [Exit.start], rfl, nofun, nofun, nofun⟩

theorem Explains.step (h : Explains events s) (taken : Step s e t) :
    Explains (events ++ [e]) t := by
  cases taken with
  | signal =>
      refine ⟨by simp, ?_, ?_, ?_, fun _ => rfl⟩
      · have notifying := h.notifying
        simp only [List.count_append, List.count_singleton] at notifying ⊢
        simp
        omega
      · intro unset
        obtain ⟨before, between, rfl, since⟩ := h.unset unset
        exact ⟨before, between ++ [.signal], by simp, since.concat (.inl rfl)⟩
      · intro waiting
        obtain ⟨before, between, after, rfl, since, below, later⟩ := h.waiting waiting
        refine ⟨before, between, after ++ [.signal], by simp, since, below, ?_⟩
        simpa [or_imp, forall_and] using later
  | @notify f n m =>
      refine ⟨by simpa using h.flag, ?_, ?_, ?_, ?_⟩
      · have notifying := h.notifying
        simp only [List.count_append, List.count_singleton] at notifying ⊢
        simp
        omega
      · intro unset
        have same : m = .unset := by
          by_cases waits : m = .waiting <;> simp_all
        obtain ⟨before, between, rfl, since⟩ := h.unset same
        exact ⟨before, between ++ [.notify], by simp, since.concat (.inr rfl)⟩
      · intro waiting
        by_cases waits : m = .waiting <;> simp_all
      · intro exiting
        apply h.exiting
        by_cases waits : m = .waiting <;> simp_all
  | @read f n =>
      refine ⟨by simpa using h.flag, by simpa using h.notifying, ?_, ?_, ?_⟩
      · intro unset
        cases f with
        | true => cases unset
        | false =>
            have unsignalled : .signal ∉ events := by simpa using h.flag
            have none := h.notifying
            rw [List.count_eq_zero_of_not_mem unsignalled] at none
            have unnotified : .notify ∉ events := List.count_eq_zero.mp (by omega)
            exact ⟨events, [], rfl, unsignalled, unnotified, nofun⟩
      · intro waiting
        cases f <;> cases waiting
      · intro exiting
        cases f with
        | true => rfl
        | false => cases exiting
  | wait =>
      refine ⟨by simpa using h.flag, by simpa using h.notifying, nofun, ?_, nofun⟩
      intro _
      obtain ⟨before, between, rfl, since⟩ := h.unset rfl
      refine ⟨before, between, [], rfl, since, ?_, nofun⟩
      have notifying := h.notifying
      rw [since.count.1, since.count.2] at notifying
      omega
  | wake => exact ⟨by simpa using h.flag, by simpa using h.notifying, nofun, nofun, nofun⟩

theorem Explains.of_run (run : Run Step Exit.start events s) : Explains events s :=
  run.invariant .start fun h taken => h.step taken

/-- The flag is set, no handler is to notify, and `main` waits or is about to. -/
def Stuck (s : State) : Prop :=
  s.gShouldExit = true ∧ s.notifying = 0 ∧ (s.main = .unset ∨ s.main = .waiting)

theorem Explains.lost (h : Explains events s) (stuck : Stuck s) : Lost events := by
  obtain ⟨flag, none, at_⟩ := stuck
  have signalled := h.flag.mp flag
  have notifying := h.notifying
  rw [none, Nat.zero_add] at notifying
  obtain unset | waiting := at_
  · obtain ⟨before, between, rfl, since⟩ := h.unset unset
    have inside : .signal ∈ between := by simpa [since.unsignalled] using signalled
    rw [since.count.1, since.count.2] at notifying
    exact ⟨before, between, .inl rfl, since.unsignalled, since.handlers, inside, notifying⟩
  · obtain ⟨before, between, after, rfl, since, below, later⟩ := h.waiting waiting
    obtain ⟨signals, notifies⟩ := since.count
    rw [List.count_append, notifies, List.count_append, signals] at notifying
    -- a signal after the wait would still be to notify
    obtain rfl : after = [] := by
      cases after with
      | nil => rfl
      | cons e after =>
          obtain rfl := later e List.mem_cons_self
          have unnotified : .notify ∉ after := by
            intro notified
            cases later _ (List.mem_cons_of_mem _ notified)
          have zero := List.count_eq_zero_of_not_mem unnotified
          simp [zero] at notifying
          omega
    have inside : .signal ∈ between := by simpa [since.unsignalled] using signalled
    refine ⟨before, between, .inr rfl, since.unsignalled, since.handlers, inside, ?_⟩
    simpa using notifying

/-- While the handlers run, `main` stays where it is. -/
theorem main_handlers (run : Run Step s events t) (unset : s.main = .unset)
    (handlers : ∀ e ∈ events, e = .signal ∨ e = .notify) : t.main = .unset := by
  induction run with
  | refl => exact unset
  | @snoc es _ e _ _ taken ih =>
      simp only [List.forall_mem_append, List.forall_mem_singleton] at handlers
      have before := ih handlers.1
      cases taken with
      | signal => exact before
      | notify => simp_all
      | _ => simp at handlers

/-- A run up to the reading of the flag and the handlers after it. -/
theorem unset_of_run (run : Run Step start (before ++ .read :: between) s)
    (unsignalled : .signal ∉ before) (handlers : ∀ e ∈ between, e = .signal ∨ e = .notify) :
    s.main = .unset ∧ Unset before between := by
  obtain ⟨s₁, first, rest⟩ := run.split
  obtain ⟨s₂, taken, rest⟩ := rest.uncons
  have explains := Explains.of_run first
  have none := explains.notifying
  rw [List.count_eq_zero_of_not_mem unsignalled] at none
  have unnotified : .notify ∉ before := List.count_eq_zero.mp (by omega)
  have flag : s₁.gShouldExit = false := by
    rw [Bool.eq_false_iff, Ne, explains.flag]
    exact unsignalled
  refine ⟨main_handlers rest ?_ handlers, unsignalled, unnotified, handlers⟩
  cases taken with
  | read =>
      cases flag
      rfl

theorem stuck_of_lost (run : Run Step start events s) (lost : Lost events) : Stuck s := by
  have explains := Explains.of_run run
  obtain ⟨before, between, rfl | rfl, unsignalled, handlers, signalled, notified⟩ := lost
  · obtain ⟨unset, since⟩ := unset_of_run run unsignalled handlers
    have notifying := explains.notifying
    rw [since.count.1, since.count.2] at notifying
    refine ⟨explains.flag.mpr ?_, by omega, .inl unset⟩
    exact List.mem_append_right _ (List.mem_cons_of_mem _ signalled)
  · obtain ⟨s₁, first, last⟩ := run.split
    obtain ⟨unset, since⟩ := unset_of_run first unsignalled handlers
    obtain ⟨s₂, taken, rest⟩ := last.uncons
    obtain rfl := rest.eq_of_nil rfl
    have notifying := (Explains.of_run first).notifying
    rw [since.count.1, since.count.2] at notifying
    have flag := (Explains.of_run first).flag.mpr
      (List.mem_append_right _ (List.mem_cons_of_mem _ signalled))
    cases taken with
    | wait => exact ⟨flag, by simp only at notifying ⊢; omega, .inr rfl⟩

theorem stuck_iff (run : Run Step start events s) : Stuck s ↔ Lost events :=
  ⟨(Explains.of_run run).lost, stuck_of_lost run⟩

/-! ## Who gets out -/

/-- Neither another signal nor a spurious wakeup. -/
def OnItsOwn (e : Event) : Prop := e ≠ .signal ∧ e ≠ .wake

theorem Stuck.step (h : Stuck s) (taken : Step s e t) (own : OnItsOwn e) : Stuck t := by
  obtain ⟨flag, none, at_⟩ := h
  cases taken with
  | signal => exact absurd rfl own.1
  | notify => cases none
  | read => simp at at_
  | wait => exact ⟨flag, none, .inr rfl⟩
  | wake => exact absurd rfl own.2

theorem Stuck.run (h : Stuck s) (run : Run Step s more t) (own : ∀ e ∈ more, OnItsOwn e) :
    Stuck t := by
  induction run with
  | refl => exact h
  | snoc _ taken ih =>
      simp only [List.forall_mem_append, List.forall_mem_singleton] at own
      exact (ih own.1).step taken own.2

/-- Without a signal the flag stays as it is. -/
theorem flag_run (run : Run Step s more t) (own : ∀ e ∈ more, OnItsOwn e) :
    t.gShouldExit = s.gShouldExit := by
  induction run with
  | refl => rfl
  | snoc _ taken ih =>
      simp only [List.forall_mem_append, List.forall_mem_singleton] at own
      rw [← ih own.1]
      cases taken with
      | signal => exact absurd rfl own.2.1
      | _ => rfl

/-- A `main` with the flag set that is not stuck gets out. -/
theorem exists_exiting (flag : s.gShouldExit = true) (free : ¬ Stuck s) :
    ∃ more t, Run Step s more t ∧ (∀ e ∈ more, OnItsOwn e) ∧ t.main = .exiting := by
  obtain ⟨f, n, m⟩ := s
  cases flag
  cases m with
  | exiting => exact ⟨[], _, .refl, nofun, rfl⟩
  | reading => exact ⟨[.read], _, .single .read, by simp [OnItsOwn], rfl⟩
  | unset =>
      cases n with
      | zero => exact absurd ⟨rfl, rfl, .inl rfl⟩ free
      | succ n =>
          have run : Run Step ⟨true, n + 1, .unset⟩ _ _ :=
            ((Run.single Step.wait).snoc Step.notify).snoc Step.read
          exact ⟨_, _, run, by simp [OnItsOwn], rfl⟩
  | waiting =>
      cases n with
      | zero => exact absurd ⟨rfl, rfl, .inr rfl⟩ free
      | succ n => exact ⟨_, _, (Run.single Step.notify).snoc Step.read, by simp [OnItsOwn], rfl⟩

/-- After any run: `main` can get out, without another signal and without a spurious wakeup,
exactly if there was a signal and the notifications were not lost. -/
theorem exits_iff (run : Run Step start events s) :
    (∃ more t, Run Step s more t ∧ (∀ e ∈ more, OnItsOwn e) ∧ t.main = .exiting) ↔
      .signal ∈ events ∧ ¬ Lost events := by
  have explains := Explains.of_run run
  rw [← stuck_iff run, ← explains.flag]
  constructor
  · rintro ⟨more, t, rest, own, exiting⟩
    refine ⟨?_, fun stuck => ?_⟩
    · rw [← flag_run rest own]
      exact (Explains.of_run (run.trans rest)).exiting exiting
    · obtain ⟨-, -, unset | waiting⟩ := stuck.run rest own
      · cases exiting.symm.trans unset
      · cases exiting.symm.trans waiting
  · rintro ⟨flag, free⟩
    exact exists_exiting flag free

/-- A signal between the reading of the flag and the wait. -/
def signalBetween : List Event := [.read, .signal, .notify, .wait]

theorem run_signalBetween : Run Step start signalBetween ⟨true, 0, .waiting⟩ :=
  (((Run.single Step.read).snoc Step.signal).snoc Step.notify).snoc Step.wait

/-- `main` waits for ever. -/
theorem exits_iff_signalBetween : ¬ ∃ more t, Run Step ⟨true, 0, .waiting⟩ more t ∧
    (∀ e ∈ more, OnItsOwn e) ∧ t.main = .exiting := by
  rw [exits_iff run_signalBetween]
  rintro ⟨-, kept⟩
  exact kept ⟨[], [.signal, .notify], .inr rfl, List.not_mem_nil, by simp, by simp, by decide⟩

end RazorCrypto.MDRunner.Exit
