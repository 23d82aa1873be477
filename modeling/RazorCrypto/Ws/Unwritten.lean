import RazorCrypto.Ws.SendQueue

/-!
# Strings that stay in the queue

`do_write` leaves the queue as it is when the link is down, and so does `on_write` after an
error. `on_ready` does not look at the queue, and so what was left there waits for a later
`send`. Strings can only be left behind in this way: when the link comes up over a queue that
nobody writes, or when `on_write` returns after an error because of `stop_`.
-/

universe u v

namespace RazorCrypto.Ws

open Transition

variable {θ : Type u} {μ : Type v} [DecidableEq θ]

/-- A thread inside `send`, `do_write` or `on_write`. The parts of `re_connect` after it
cleared `ready_` count as outside. -/
def Pc.inside : Pc μ → Bool
  | .sendTestStop _ | .sendQueue _ | .doWrite | .asyncWrite _ | .writePop _ | .writeRelease
  | .writeTestStop => true
  | .reconnectStream onWrite | .reconnectClearReady onWrite => onWrite
  | _ => false

/-- `on_write` after it released the baton because of an error, until the link is marked as
down. -/
def Pc.failing : Pc μ → Bool
  | .writeTestStop => true
  | .reconnectStream onWrite | .reconnectClearReady onWrite => onWrite
  | _ => false

theorem Pc.inside_of_failing {pc : Pc μ} (failing : pc.failing = true) : pc.inside = true := by
  cases pc <;> simp_all [Pc.failing, Pc.inside]

theorem Pc.inside_of_holds {pc : Pc μ} (holds : pc.holds = true) : pc.inside = true := by
  cases pc <;> simp_all [Pc.holds, Pc.inside]

/-- The queue is empty or somebody writes it. -/
def Attended (s : State θ μ) : Prop :=
  s.mSendQueue = [] ∨ s.mWriteInProgress = true

/-- A step that does not leave strings behind on a link that is up. -/
def AttendedStep (s : State θ μ) (e : Event μ) (t : State θ μ) : Prop :=
  Step s e t ∧ (e = .onReady → Attended s) ∧ (e = .gaveUp → s.ready = true → Attended s)

/-- When nobody writes the queue, the link is down or about to be marked so. -/
def Covered (s : State θ μ) : Prop :=
  Attended s ∨ s.ready = false ∨ (s.threads none).failing = true

variable {s t : State θ μ} {e : Event μ} {events : List (Event μ)}

omit [DecidableEq θ] in
theorem Attended.of_eq (h : Attended s) (queue : t.mSendQueue = s.mSendQueue)
    (busy : t.mWriteInProgress = s.mWriteInProgress) : Attended t :=
  h.imp queue.trans busy.trans

omit [DecidableEq θ] in
/-- A step of the handler thread outside the failing part of `on_write`. -/
theorem Covered.leave (h : Covered s) {pc : Pc μ} (here : s.threads none = pc)
    (outside : pc.failing = false) (queue : t.mSendQueue = s.mSendQueue)
    (busy : t.mWriteInProgress = s.mWriteInProgress) (ready : t.ready = s.ready) :
    Covered t := by
  obtain attended | down | failing := h
  · exact Or.inl (attended.of_eq queue busy)
  · exact Or.inr (Or.inl (ready.trans down))
  · exact absurd ((here ▸ outside).symm.trans failing) Bool.false_ne_true

/-- A step of another thread that leaves the queue alone. -/
theorem Covered.other (h : Covered s) (i : θ) (pc : Pc μ) : Covered (s.goto (some i) pc) := by
  have handler : (s.goto (some i) pc).threads none = s.threads none :=
    by simp [State.goto]
  rw [Covered, handler]
  exact h

omit [DecidableEq θ] in
theorem Completes.ready {op : Op} {ec : Bool} (done : Completes s op ec t) : t.ready = s.ready := by
  obtain ⟨-, -, -, -, ready, -⟩ := done.frame
  exact ready

/-- A step of the link leaves nothing behind unless it is one of the two. -/
theorem LinkStep.covered (h : Covered s) (taken : LinkStep s e t)
    (onReady : e = .onReady → Attended s) (gaveUp : e = .gaveUp → s.ready = true → Attended s) :
    Covered t := by
  have aside := taken.aside
  cases taken with
  | writeStopped here stop =>
      cases up : s.ready with
      | false => exact Or.inr (Or.inl up)
      | true => exact Or.inl ((gaveUp rfl up).of_eq rfl rfl)
  | writeReconnect here stop => exact Or.inr (Or.inr (by simp [State.goto, Pc.failing]))
  | readySet here => exact Or.inl ((onReady rfl).of_eq rfl rfl)
  | @reconnectStream onWrite here =>
      cases onWrite with
      | true => exact Or.inr (Or.inr (by simp [State.goto, Pc.failing]))
      | false => exact h.leave here rfl rfl rfl rfl
  | reconnectClearReady here => exact Or.inr (Or.inl rfl)
  | onResolved idle done | onConnected idle done | onSslHandshake idle done | onReady idle done
  | onRead idle done | onReadFailed idle done | onTlsextFailed idle done =>
      exact h.leave idle rfl aside.queue aside.busy done.ready
  | onFailed idle _ done => exact h.leave idle rfl aside.queue aside.busy done.ready
  | connectedClearStop here | connectedHandshake here | startRead here | readDataReady here
  | readStopped here | readAgain here | readFailedStopped here | readFailedReconnect here
  | reconnectStopped here | reconnectRunning here | reconnectClose here
  | reconnectConnect here => exact h.leave here rfl rfl rfl rfl
  | ownerClose => exact h

/-- Whoever has the baton attends to the queue. -/
theorem SendStep.covered {holder : Holder θ} (held : Held holder events s) (h : Covered s)
    (taken : SendStep s e t) : Covered t := by
  have busy : ∀ {i pc}, s.threads i = pc → pc.holds = true → s.mWriteInProgress = true := by
    intro i pc here holds
    rw [held.busy, held.eq_thread here holds]
    simp
  cases taken with
  | unready => exact h
  | testReady | stopped | testStop => exact h.other ..
  | queueBusy _ busy => exact Or.inl (Or.inr busy)
  | queueFree => exact Or.inl (Or.inr rfl)
  | doWriteNone _ nothing =>
      obtain empty | down := nothing
      · exact Or.inl (Or.inl empty)
      · exact Or.inr (Or.inl down)
  | doWriteFront here | asyncWrite here | writePop here =>
      exact Or.inl (Or.inr (busy here rfl))
  | onWrite idle => exact h.leave idle rfl rfl rfl rfl
  | writeRelease => exact Or.inr (Or.inr (by simp [State.goto, Pc.failing]))

omit [DecidableEq θ] in
/-- On a link that is up nobody is attending to strings but the network. -/
theorem Covered.outstanding {holder : Holder θ} (covered : Covered s) (held : Held holder events s)
    (ready : s.ready = true) (outside : ∀ i, (s.threads i).inside = false)
    (queue : s.mSendQueue ≠ []) : 0 < s.writes := by
  have busy : s.mWriteInProgress = true := by
    obtain (empty | busy) | down | failing := covered
    · exact absurd empty queue
    · exact busy
    · exact absurd (down.symm.trans ready) Bool.false_ne_true
    · exact absurd ((outside none).symm.trans (Pc.inside_of_failing failing)) Bool.false_ne_true
  rw [held.writes]
  cases holder with
  | nobody => exact absurd rfl (held.busy.mp busy)
  | thread i =>
      have inside := Pc.inside_of_holds ((held.threads i).mpr rfl)
      exact absurd ((outside i).symm.trans inside) Bool.false_ne_true
  | network => exact Nat.one_pos

/-- In every run in which no step leaves strings behind, on a link that is up a non-empty
queue outside `send`, `do_write` and `on_write` has a write outstanding. -/
theorem outstanding_of_queued (run : Run AttendedStep (State.connecting : State θ μ) events s)
    (ready : s.ready = true) (outside : ∀ i, (s.threads i).inside = false)
    (queue : s.mSendQueue ≠ []) : 0 < s.writes := by
  have invariant : (∃ holder, Held holder events s) ∧ Covered s := by
    refine run.invariant (I := fun events s => (∃ holder, Held holder events s) ∧ Covered s)
      ⟨⟨.nobody, held_connecting⟩, Or.inl (Or.inl rfl)⟩ ?_
    rintro events s e t ⟨⟨holder, held⟩, covered⟩ ⟨taken, onReady, gaveUp⟩
    refine ⟨held.step taken, ?_⟩
    cases taken with
    | send taken => exact taken.covered held covered
    | link taken => exact taken.covered covered onReady gaveUp
  obtain ⟨⟨holder, held⟩, covered⟩ := invariant
  exact covered.outstanding held ready outside queue

/-- A run of the link over an attended queue leaves nothing behind. -/
theorem run_attended (attended : Attended s) (run : Run LinkStep s events t) :
    Run AttendedStep s events t := by
  refine (run.invariant (I := fun events t => Run AttendedStep s events t ∧ Attended t)
    ⟨.refl, attended⟩ ?_).1
  rintro events t e u ⟨run, attended⟩ taken
  have aside := taken.aside
  exact ⟨run.snoc ⟨.link taken, fun _ => attended, fun _ _ => attended⟩,
    attended.of_eq aside.queue aside.busy⟩

/-- The two steps that can leave strings behind are steps of the link. -/
theorem run_send_attended (run : Run SendStep s events t) : Run AttendedStep s events t := by
  refine run.invariant (I := fun events t => Run AttendedStep s events t) .refl ?_
  intro events t e u run taken
  refine run.snoc ⟨.send taken, ?_, ?_⟩
  · rintro rfl
    cases taken
  · rintro rfl
    cases taken

/-- One string on a link that is up, handed to `async_write`. -/
theorem outstanding_of_queued_one : ∃ (events : List (Event Nat)) (s : State Bool Nat),
    Run AttendedStep State.connecting events s ∧ s.ready = true ∧
      (∀ i, (s.threads i).inside = false) ∧ s.mSendQueue ≠ [] ∧ 0 < s.writes := by
  obtain ⟨t, linked, up⟩ := run_linked (s := (State.connecting : State Bool Nat)) rfl rfl
  have idle : ∀ i, t.threads i = .idle := congrFun up.threads
  have handed := run_handed (idle (some false)) up.ready up.stop up.busy up.queue 1
  have run := (run_attended (Or.inl rfl) linked).trans (run_send_attended handed)
  have outside : ∀ i, (t.handed.threads i).inside = false := by
    intro i
    exact congrArg Pc.inside (idle i)
  have queue : t.handed.mSendQueue ≠ [] := List.cons_ne_nil none []
  exact ⟨_, _, run, up.ready, outside, queue, outstanding_of_queued run up.ready outside queue⟩

/-- `send` queues a string on a link that is down, and `do_write` leaves it there. -/
theorem run_left {i : θ} {data : μ} (here : s.threads (some i) = .sendQueue data)
    (free : s.mWriteInProgress = false) (down : s.ready = false) :
    Run SendStep s [.queued data, .silent]
      { s.goto (some i) .idle with
        mSendQueue := s.mSendQueue ++ [some data]
        mWriteInProgress := false } := by
  have queued := Run.single (SendStep.queueFree here free)
  have left := queued.snoc (.doWriteNone (i := some i) (by simp [State.goto]) (Or.inr down))
  simpa [State.goto] using left

/-- A sender passes its tests, the link breaks, `do_write` gives up and the link comes up
again. Nobody writes the string. -/
theorem queued_unattended : ∃ (events : List (Event Nat)) (s : State Bool Nat),
    Run Step State.connecting events s ∧ s.ready = true ∧
      (∀ i, (s.threads i).inside = false) ∧ s.mSendQueue = [some 1] ∧ s.writes = 0 := by
  obtain ⟨t, linked, up⟩ := run_linked (s := (State.connecting : State Bool Nat)) rfl rfl
  have idle : ∀ i, t.threads i = .idle := congrFun up.threads
  have tested := run_tested (idle (some false)) up.ready up.stop 1
  obtain ⟨n, reading⟩ := up.started
  obtain ⟨u, breaks, lost⟩ := run_lost (s := t.goto (some false) (.sendQueue 1))
    (by simp [State.goto, idle]) reading up.stop
  have sender : u.threads (some false) = .sendQueue 1 := by simp [lost.threads, State.goto]
  have others : ∀ i, i ≠ some false → u.threads i = .idle := by
    intro i other
    cases i <;> simp [lost.threads, State.goto, other, idle]
  have left := run_left sender (lost.busy.trans up.busy) lost.ready
  obtain ⟨m, resolving⟩ := lost.resolving
  obtain ⟨v, relinked, again⟩ := run_linked
    (s := { u.goto (some false) .idle with
      mSendQueue := u.mSendQueue ++ [some 1]
      mWriteInProgress := false })
    (by simp [State.goto, others]) resolving
  have run := (((run_link linked).trans (run_send tested)).trans (run_link breaks)).trans
    ((run_send left).trans (run_link relinked))
  refine ⟨_, v, run, again.ready, ?_, ?_, ?_⟩
  · intro i
    rw [again.threads]
    by_cases same : i = some false
    · simp [State.goto, same, Pc.inside]
    · simp [State.goto, same, others, Pc.inside]
  · rw [again.queue]
    exact congrArg (· ++ [some 1]) (lost.queue.trans up.queue)
  · rw [again.writes]
    exact lost.writes.trans up.writes

end RazorCrypto.Ws
