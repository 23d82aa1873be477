import RazorCrypto.Ws.Link

/-!
# Closing the WebSocket client

`close` sets `stop_`. `on_read` tests it after `on_data_ready` and before `re_connect`,
`on_write` before `re_connect`. The other handlers do not test it, `re_connect` connects
again whether it is set or not, and `on_connected` clears it. So `close` is final only where
nothing is under way but writes and the rest of a handler that still tests `stop_`.
-/

universe u v

namespace RazorCrypto.Ws

open Transition

variable {θ : Type u} {μ : Type v} [DecidableEq θ]

/-- A connection attempt, `on_ready` or `on_data_ready`. -/
def Event.resumes : Event μ → Bool
  | .attempt | .onReady | .onDataReady => true
  | _ => false

/-- A place of the handler thread from which it resumes work whatever `stop_` says. -/
def Pc.resumes : Pc μ → Bool
  | .connectedClearStop | .connectedHandshake | .readySet | .startRead | .readDataReady
  | .reconnectStream _ | .reconnectClearReady _ | .reconnectTestStop | .reconnectClose
  | .reconnectConnect => true
  | _ => false

/-- A place inside `send` before its end. -/
def Pc.sends : Pc μ → Bool
  | .sendTestStop _ | .sendQueue _ => true
  | _ => false

/-- Nothing resumes work after `close`, however the client goes on. -/
def CloseFinal (s : State θ μ) : Prop :=
  ∀ events t, Run Step s.close events t → .closed ∉ events → ∀ e ∈ events, e.resumes = false

/-- No operation but writes and reads of a replaced stream is under way, and the handler
thread is not on its way to start one. -/
structure Quiet (s : State θ μ) : Prop where
  pending : ∀ op, s.pending op = 0
  aborted : ∀ op, op ≠ .read → s.aborted op = 0
  handler : (s.threads none).resumes = false

/-- The client can resume work with nobody calling `close`. -/
def Resumes (s : State θ μ) : Prop :=
  ∃ events t, Run Step s events t ∧ .closed ∉ events ∧ ∃ e ∈ events, e.resumes = true

variable {s t : State θ μ} {e : Event μ} {events : List (Event μ)}

theorem closeFinal_iff : CloseFinal s ↔ ¬ Resumes s.close := by
  constructor
  · rintro final ⟨events, t, run, once, e, member, resumes⟩
    exact Bool.false_ne_true ((final events t run once e member).symm.trans resumes)
  · intro none events t run once e member
    by_contra resumes
    exact none ⟨events, t, run, once, e, member, by simpa using resumes⟩

/-! ## After a quiet close -/

/-- A quiet client that was closed. -/
structure Final (s : State θ μ) : Prop extends Quiet s where
  stop : s.stop = true

namespace Final

/-- A thread moves on to a place that does not resume work. -/
theorem goto (h : Final s) {i : Option θ} {pc : Pc μ} (threads : t.threads = (s.goto i pc).threads)
    (calm : pc.resumes = false) (pending : t.pending = s.pending) (aborted : t.aborted = s.aborted)
    (stop : t.stop = s.stop) : Final t := by
  refine ⟨⟨pending ▸ h.pending, aborted ▸ h.aborted, ?_⟩, stop ▸ h.stop⟩
  rw [threads]
  cases i with
  | none => simpa [State.goto] using calm
  | some i => simpa [State.goto] using h.handler

omit [DecidableEq θ] in
theorem absurd_pc (h : Final s) {pc : Pc μ} (here : s.threads none = pc)
    (resumes : pc.resumes = true) : False :=
  Bool.false_ne_true (h.handler.symm.trans (here ▸ resumes))

omit [DecidableEq θ] in
/-- Only a read of a replaced stream can complete. -/
theorem completes (h : Final s) {op : Op} {ec : Bool} (done : Completes s op ec t) :
    op = .read ∧ ec = true ∧ ∃ n, t = { s with aborted := Function.update s.aborted .read n } := by
  cases done with
  | succeeded started | failed started =>
      exact absurd (started.symm.trans (h.pending op)) (Nat.succ_ne_zero _)
  | @aborted n started =>
      by_cases read : op = .read
      · subst read
        exact ⟨rfl, rfl, n, rfl⟩
      · exact absurd (started.symm.trans (h.aborted op read)) (Nat.succ_ne_zero _)

/-- The senders and the writes go on without resuming work. -/
theorem send_step (h : Final s) (taken : SendStep s e t) : Final t ∧ e.resumes = false := by
  cases taken with
  | unready => exact ⟨h, rfl⟩
  | testReady | stopped | testStop | queueBusy | queueFree | doWriteNone | doWriteFront
  | asyncWrite | onWrite | writeRelease =>
      exact ⟨h.goto rfl rfl rfl rfl rfl, rfl⟩
  | @writePop ec =>
      exact ⟨h.goto rfl (by cases ec <;> rfl) rfl rfl rfl, rfl⟩

/-- The handlers end where they test `stop_`. -/
theorem link_step (h : Final s) (taken : LinkStep s e t) : Final t ∧ e.resumes = false := by
  cases taken with
  | writeStopped | readStopped | readFailedStopped =>
      exact ⟨h.goto rfl rfl rfl rfl rfl, rfl⟩
  | writeReconnect _ stop | readAgain _ stop | readFailedReconnect _ stop =>
      exact absurd (stop.symm.trans h.stop) Bool.false_ne_true
  | onResolved _ done | onConnected _ done | onSslHandshake _ done | onReady _ done
  | onRead _ done | onTlsextFailed _ done =>
      obtain ⟨op, ec, -⟩ := h.completes done
      simp at op ec
  | onFailed _ calls done =>
      obtain ⟨rfl, -⟩ := h.completes done
      simp at calls
  | onReadFailed idle done =>
      obtain ⟨-, -, n, rfl⟩ := h.completes done
      refine ⟨⟨⟨h.pending, ?_, by simp [State.goto, Pc.resumes]⟩, h.stop⟩, rfl⟩
      intro op other
      exact (Function.update_of_ne other ..).trans (h.aborted op other)
  | connectedClearStop here | connectedHandshake here | readySet here | startRead here
  | readDataReady here | reconnectStream here | reconnectClearReady here
  | reconnectStopped here | reconnectRunning here | reconnectClose here
  | reconnectConnect here => exact (h.absurd_pc here rfl).elim
  | ownerClose => exact ⟨⟨⟨h.pending, h.aborted, h.handler⟩, rfl⟩, rfl⟩

theorem step (h : Final s) (taken : Step s e t) : Final t ∧ e.resumes = false := by
  cases taken with
  | send taken => exact h.send_step taken
  | link taken => exact h.link_step taken

/-- However a quiet client goes on after `close`, nothing resumes work. -/
theorem run (h : Final s) (run : Run Step s events t) : ∀ e ∈ events, e.resumes = false := by
  refine (run.invariant (I := fun events t => Final t ∧ ∀ e ∈ events, e.resumes = false)
    ⟨h, by simp⟩ ?_).2
  rintro events t e u ⟨final, calm⟩ taken
  obtain ⟨final, last⟩ := final.step taken
  refine ⟨final, ?_⟩
  intro e' member
  obtain earlier | rfl := by simpa using member
  · exact calm e' earlier
  · exact last

end Final

/-! ## After another close -/

namespace Resumes

theorem now (taken : Step s e t) (resumes : e.resumes = true) : Resumes s := by
  refine ⟨[e], t, .single taken, ?_, e, by simp, resumes⟩
  intro closed
  obtain rfl : .closed = e := by simpa using closed
  exact Bool.false_ne_true resumes

theorem later (taken : Step s e t) (other : e ≠ .closed) (rest : Resumes t) : Resumes s := by
  obtain ⟨events, u, run, once, e', member, resumes⟩ := rest
  refine ⟨e :: events, u, run.head taken, ?_, e', by simp [member], resumes⟩
  simpa [Ne.symm other] using once

/-- `re_connect` ends with a connection attempt. -/
theorem of_reconnectTestStop (here : s.threads none = .reconnectTestStop) : Resumes s := by
  cases stop : s.stop with
  | true =>
      exact later (.link (.reconnectStopped here stop)) (by simp)
        (now (.link (.reconnectConnect (State.goto_self ..))) rfl)
  | false =>
      exact later (.link (.reconnectRunning here stop)) (by simp)
        (later (.link (.reconnectClose (State.goto_self ..))) (by simp)
          (now (.link (.reconnectConnect (by simp [State.goto]))) rfl))

theorem of_reconnectClearReady {onWrite : Bool}
    (here : s.threads none = .reconnectClearReady onWrite) : Resumes s :=
  later (.link (.reconnectClearReady here)) (by simp)
    (of_reconnectTestStop (by simp [State.goto]))

theorem of_reconnectStream {onWrite : Bool} (here : s.threads none = .reconnectStream onWrite) :
    Resumes s :=
  later (.link (.reconnectStream here)) (by simp)
    (of_reconnectClearReady (State.goto_self ..))

/-- A handler that calls `re_connect` without a test resumes work. -/
theorem of_failed {op : Op} (idle : s.threads none = .idle)
    (calls : op = .resolve ∨ op = .connect ∨ op = .handshake) (done : Completes s op true t) :
    Resumes s :=
  later (.link (.onFailed idle calls done)) (by simp) (of_reconnectStream (State.goto_self ..))

/-- `on_ssl_handshake` goes on after any result. -/
theorem of_sslHandshake {ec : Bool} (idle : s.threads none = .idle)
    (done : Completes s .sslHandshake ec t) : Resumes s := by
  refine later (.link (.onSslHandshake idle done)) (by simp) ?_
  have idle : (t.start .handshake).threads none = .idle := by
    obtain ⟨-, -, -, threads, -⟩ := done.frame
    exact (congrFun threads none).trans idle
  exact of_failed idle (by simp) (.failed (State.start_self t .handshake))

theorem of_reading {n : Nat} (idle : s.threads none = .idle) (reading : s.pending .read = n + 1) :
    Resumes s :=
  later (.link (.onRead idle (.succeeded reading rfl))) (by simp)
    (now (.link (.readDataReady (State.goto_self ..))) rfl)

/-- From the places where no test of `stop_` is left. -/
theorem of_pc (resumes : (s.threads none).resumes = true) : Resumes s := by
  cases here : s.threads none with
  | connectedClearStop =>
      refine later (.link (.connectedClearStop here)) (by simp) ?_
      refine later (.link (.connectedHandshake (by simp [State.goto]))) (by simp) ?_
      exact of_sslHandshake (by simp [State.goto, State.start]) (.failed (State.start_self ..))
  | connectedHandshake =>
      refine later (.link (.connectedHandshake here)) (by simp) ?_
      exact of_sslHandshake (by simp [State.goto, State.start]) (.failed (State.start_self ..))
  | readySet => exact now (.link (.readySet here)) rfl
  | startRead =>
      refine later (.link (.startRead here)) (by simp) ?_
      exact of_reading (by simp [State.goto, State.start]) (State.start_self ..)
  | readDataReady => exact now (.link (.readDataReady here)) rfl
  | reconnectStream onWrite => exact of_reconnectStream here
  | reconnectClearReady onWrite => exact of_reconnectClearReady here
  | reconnectTestStop => exact of_reconnectTestStop here
  | reconnectClose =>
      exact later (.link (.reconnectClose here)) (by simp)
        (now (.link (.reconnectConnect (by simp [State.goto]))) rfl)
  | reconnectConnect => exact now (.link (.reconnectConnect here)) rfl
  | idle | sendTestStop | sendQueue | doWrite | asyncWrite | writePop | writeRelease
  | writeTestStop | readTestStop | readFailed => simp [here, Pc.resumes] at resumes

/-- An operation besides writes that completes on an idle handler thread. -/
theorem of_completion {op : Op} {n : Nat} (idle : s.threads none = .idle)
    (started : s.pending op = n + 1 ∨ (op ≠ .read ∧ s.aborted op = n + 1)) : Resumes s := by
  obtain pending | ⟨other, aborted⟩ := started
  · cases op with
    | read => exact of_reading idle pending
    | sslHandshake => exact of_sslHandshake idle (.failed pending)
    | resolve | connect | handshake => exact of_failed idle (by simp) (.failed pending)
  · cases op with
    | read => exact absurd rfl other
    | sslHandshake => exact of_sslHandshake idle (.aborted aborted)
    | resolve | connect | handshake => exact of_failed idle (by simp) (.aborted aborted)

end Resumes

/-- The handler thread can come to rest with the operations still under way. -/
def Rests (s : State θ μ) : Prop :=
  ∃ events t, Run Step s events t ∧ .closed ∉ events ∧ t.threads none = .idle ∧
    t.pending = s.pending ∧ t.aborted = s.aborted

namespace Rests

theorem now (idle : s.threads none = .idle) : Rests s :=
  ⟨[], s, .refl, by simp, idle, rfl, rfl⟩

theorem later (taken : Step s e t) (other : e ≠ .closed) (pending : t.pending = s.pending)
    (aborted : t.aborted = s.aborted) (rest : Rests t) : Rests s := by
  obtain ⟨events, u, run, once, idle, pending', aborted'⟩ := rest
  refine ⟨e :: events, u, run.head taken, ?_, idle, pending'.trans pending,
    aborted'.trans aborted⟩
  simpa [Ne.symm other] using once

theorem of_doWrite (here : s.threads none = .doWrite) : Rests s := by
  by_cases nothing : s.mSendQueue = [] ∨ s.ready = false
  · exact later (.send (.doWriteNone here nothing)) (by simp) rfl rfl
      (now (by simp [State.goto]))
  · cases queue : s.mSendQueue with
    | nil => exact absurd (Or.inl queue) nothing
    | cons front rest =>
        have ready : s.ready = true := by
          cases up : s.ready with
          | false => exact absurd (Or.inr up) nothing
          | true => rfl
        exact later (.send (.doWriteFront here queue ready)) (by simp) rfl rfl
          (later (.send (.asyncWrite (State.goto_self ..))) (by simp) rfl rfl
            (now (by simp [State.goto])))

theorem of_writeRelease (here : s.threads none = .writeRelease) (stop : s.stop = true) :
    Rests s :=
  later (.send (.writeRelease here)) (by simp) rfl rfl
    (later (.link (.writeStopped (by simp [State.goto]) stop)) (by simp) rfl rfl
      (now (by simp [State.goto])))

/-- With `stop_` set, whatever the handler thread is doing besides resuming work. -/
theorem of_stop (stop : s.stop = true) (calm : (s.threads none).resumes = false)
    (handler : (s.threads none).sends = false) : Rests s := by
  cases here : s.threads none with
  | idle => exact now here
  | doWrite => exact of_doWrite here
  | asyncWrite =>
      exact later (.send (.asyncWrite here)) (by simp) rfl rfl (now (by simp [State.goto]))
  | writePop ec =>
      refine later (.send (.writePop here)) (by simp) rfl rfl ?_
      cases ec with
      | false => exact of_doWrite (by simp [State.goto])
      | true => exact of_writeRelease (by simp [State.goto]) stop
  | writeRelease => exact of_writeRelease here stop
  | writeTestStop =>
      exact later (.link (.writeStopped here stop)) (by simp) rfl rfl (now (State.goto_self ..))
  | readTestStop =>
      exact later (.link (.readStopped here stop)) (by simp) rfl rfl (now (State.goto_self ..))
  | readFailed =>
      exact later (.link (.readFailedStopped here stop)) (by simp) rfl rfl
        (now (State.goto_self ..))
  | sendTestStop | sendQueue => simp [here, Pc.sends] at handler
  | connectedClearStop | connectedHandshake | readySet | startRead | readDataReady
  | reconnectStream | reconnectClearReady | reconnectTestStop | reconnectClose
  | reconnectConnect => simp [here, Pc.resumes] at calm

end Rests

/-- A client at rest with an operation under way can resume work. -/
theorem Resumes.of_rests (rests : Rests s) {op : Op} {n : Nat}
    (started : s.pending op = n + 1 ∨ (op ≠ .read ∧ s.aborted op = n + 1)) : Resumes s := by
  obtain ⟨events, t, run, once, idle, pending, aborted⟩ := rests
  rw [← pending, ← aborted] at started
  obtain ⟨events', u, run', once', e, member, resumes⟩ := of_completion idle started
  refine ⟨events ++ events', u, run.trans run', ?_, e, by simp [member], resumes⟩
  simp [once, once']

/-! ## When `close` is final -/

/-- Only the other threads enter `send`. -/
theorem SendStep.handler (calm : (s.threads none).sends = false) (taken : SendStep s e t) :
    (t.threads none).sends = false := by
  cases taken with
  | unready => exact calm
  | testReady | stopped | testStop | queueBusy | queueFree => simpa [State.goto] using calm
  | @doWriteNone i | @doWriteFront i | @asyncWrite i =>
      cases i with
      | none => simp [State.goto, Pc.sends]
      | some i => simpa [State.goto] using calm
  | @writePop ec => cases ec <;> simp [State.goto, Pc.sends]
  | onWrite | writeRelease => simp [State.goto, Pc.sends]

theorem LinkStep.handler (calm : (s.threads none).sends = false) (taken : LinkStep s e t) :
    (t.threads none).sends = false := by
  cases taken with
  | onResolved _ done | onSslHandshake _ done =>
      obtain ⟨-, -, -, threads, -⟩ := done.frame
      exact (congrArg Pc.sends (congrFun threads none)).trans calm
  | ownerClose => exact calm
  | _ => simp [State.goto, State.start, Pc.sends]

/-- The handler thread never runs `send`. -/
theorem handler_sends (run : Run Step (State.connecting : State θ μ) events s) :
    (s.threads none).sends = false := by
  refine run.invariant (I := fun _ s => (s.threads none).sends = false) rfl ?_
  rintro - s e t calm taken
  cases taken with
  | send taken => exact taken.handler calm
  | link taken => exact taken.handler calm

/-- In every state that a client can come to, `close` is final if and only if nothing but
writes and reads of a replaced stream is under way and the handler thread is not on its way to
start more. -/
theorem closeFinal_iff_quiet (run : Run Step (State.connecting : State θ μ) events s) :
    CloseFinal s ↔ Quiet s := by
  have handler := handler_sends run
  rw [closeFinal_iff]
  constructor
  · intro ends
    have calm : (s.threads none).resumes = false := by
      by_contra resumes
      exact ends (.of_pc (s := s.close) (by simpa [State.close] using resumes))
    have rests : Rests s.close := .of_stop rfl calm handler
    refine ⟨?_, ?_, calm⟩
    · intro op
      by_contra some
      obtain ⟨n, started⟩ := Nat.exists_eq_succ_of_ne_zero some
      exact ends (.of_rests rests (Or.inl started))
    · intro op other
      by_contra some
      obtain ⟨n, started⟩ := Nat.exists_eq_succ_of_ne_zero some
      exact ends (.of_rests rests (Or.inr ⟨other, started⟩))
  · rintro quiet ⟨events, t, run, -, e, member, resumes⟩
    have final : Final s.close := ⟨⟨quiet.pending, quiet.aborted, quiet.handler⟩, rfl⟩
    exact Bool.false_ne_true ((final.run run e member).symm.trans resumes)

/-- A client whose read failed, closed before `on_read` tests `stop_`: here `close` is final. -/
theorem closeFinal_iff_quiet_readFailed : ∃ (events : List (Event Nat)) (s : State Bool Nat),
    Run Step State.connecting events s ∧ s.threads none = .readFailed ∧
      (CloseFinal s ↔ Quiet s) ∧ Quiet s := by
  obtain ⟨t, linked, up⟩ := run_linked (s := (State.connecting : State Bool Nat)) rfl rfl
  have idle : t.threads none = .idle := congrFun up.threads none
  have pending : t.pending = only .read := up.alone rfl
  have reading : t.pending .read = 0 + 1 := by simp [pending, only]
  have failed := (run_link linked).snoc (.link (.onReadFailed idle (.failed reading)))
  refine ⟨_, _, failed, State.goto_self .., closeFinal_iff_quiet failed, ?_, ?_, ?_⟩
  · intro op
    cases op <;> simp [State.goto, pending, only]
  · intro op _
    exact congrFun up.aborted op
  · simp [State.goto, Pc.resumes]

/-- Closed while it waits for the resolver, a client goes on to connect, to become ready and
to clear `stop_`. -/
theorem close_resumes : ∃ (events : List (Event Nat)) (t : State Bool Nat),
    Run Step State.connecting.close events t ∧ .closed ∉ events ∧ .attempt ∈ events ∧
      .onReady ∈ events ∧ t.ready = true ∧ t.stop = false := by
  obtain ⟨t, linked, up⟩ := run_linked (s := (State.connecting.close : State Bool Nat)) rfl rfl
  exact ⟨_, t, run_link linked, by simp, by simp, by simp, up.ready, up.stop⟩

end RazorCrypto.Ws
