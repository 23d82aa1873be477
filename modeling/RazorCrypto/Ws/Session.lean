import RazorCrypto.Ws.SendQueue

/-!
# Sessions of the WebSocket client

A session begins when `on_ready` finds the handshake done. What is handed to `async_write`
from then on goes to the stream of this session until `re_connect` replaces it. While the
owner does not call `close`, a client that is ready is not stopped: `re_connect` clears
`ready_` before it sets `stop_`, and no handshake is done before `on_connected` cleared it.
-/

universe u v

namespace RazorCrypto.Ws

open Transition

variable {θ : Type u} {μ : Type v} [DecidableEq θ]

/-- The strings handed over since the last `on_ready`, each with the stream it went to. -/
def handed (events : List (Event μ)) : List (Nat × Option μ) :=
  events.foldl (fun strings e => match e with
    | .onReady => []
    | .wrote session data => strings ++ [(session, data)]
    | _ => strings) []

/-- The handler thread is inside `re_connect` with the stream replaced. -/
def Pc.replaced : Pc μ → Bool
  | .reconnectClearReady _ | .reconnectTestStop | .reconnectClose | .reconnectConnect => true
  | _ => false

/-- It also cleared `ready_`. -/
def Pc.down : Pc μ → Bool
  | .reconnectTestStop | .reconnectClose | .reconnectConnect => true
  | _ => false

/-- How the stream, `stop_` and `ready_` go together when nobody calls `close`. -/
structure Opened (s : State θ μ) : Prop where
  stopped : s.stop = true →
    s.stage = .fresh ∨ s.stage = .connected ∧ s.threads none = .connectedClearStop
  opening : s.threads none = .readySet → s.stage = .established
  replaced : (s.threads none).replaced = true → s.stage = .fresh
  down : (s.threads none).down = true → s.ready = false
  running : s.ready = true → s.stop = false

variable {s t : State θ μ} {e : Event μ} {events : List (Event μ)}

omit [DecidableEq θ] in
theorem opened_connecting : Opened (State.connecting : State θ μ) :=
  ⟨fun _ => Or.inl rfl, by simp [State.connecting], by simp [State.connecting, Pc.replaced],
    by simp [State.connecting, Pc.down], by simp [State.connecting]⟩

/-- A place of the handler thread at which nothing is known of the stream. -/
def Pc.plain : Pc μ → Bool
  | .readySet | .connectedClearStop => false
  | pc => !pc.replaced

omit [DecidableEq θ] in
theorem Completes.stage_of_error {op : Op} (done : Completes s op true t) : t.stage = s.stage := by
  cases done <;> rfl

omit [DecidableEq θ] in
theorem Completes.stage {op : Op} (done : Completes s op false t) :
    op.able s.stage = true ∧ t.stage = op.reached s.stage := by
  cases done with
  | succeeded _ able => exact ⟨able, rfl⟩

namespace Opened

omit [DecidableEq θ] in
/-- What does not touch the link. -/
theorem still (h : Opened s) (handler : t.threads none = s.threads none)
    (stage : t.stage = s.stage) (ready : t.ready = s.ready) (stop : t.stop = s.stop) :
    Opened t := by
  refine ⟨?_, ?_, ?_, ?_, ?_⟩
  · rw [stop, stage, handler]
    exact h.stopped
  · rw [stage, handler]
    exact h.opening
  · rw [stage, handler]
    exact h.replaced
  · rw [ready, handler]
    exact h.down
  · rw [ready, stop]
    exact h.running

omit [DecidableEq θ] in
/-- A step to a plain place that leaves the stream and the flags alone. -/
theorem plain (h : Opened s) {pc : Pc μ} (here : s.threads none = pc)
    (started : pc ≠ .connectedClearStop) (after : (t.threads none).plain = true)
    (stage : t.stage = s.stage) (ready : t.ready = s.ready) (stop : t.stop = s.stop) :
    Opened t := by
  refine ⟨?_, ?_, ?_, ?_, ?_⟩
  · intro stopped
    obtain fresh | ⟨-, there⟩ := h.stopped (stop ▸ stopped)
    · exact Or.inl (stage.trans fresh)
    · exact absurd (here.symm.trans there) started
  · intro opening
    simp [opening, Pc.plain] at after
  · intro replaced
    cases place : t.threads none <;> simp_all [Pc.plain, Pc.replaced]
  · intro down
    cases place : t.threads none <;> simp_all [Pc.plain, Pc.replaced, Pc.down]
  · rw [ready, stop]
    exact h.running

omit [DecidableEq θ] in
/-- A running client outside `re_connect`. -/
theorem of_stop (stop : t.stop = false) (outside : (t.threads none).replaced = false)
    (opening : t.threads none = .readySet → t.stage = .established) : Opened t := by
  refine ⟨?_, opening, ?_, ?_, fun _ => stop⟩
  · exact fun stopped => absurd (stop.symm.trans stopped) Bool.false_ne_true
  · exact fun replaced => absurd (outside.symm.trans replaced) Bool.false_ne_true
  · intro down
    cases place : t.threads none <;> simp_all [Pc.replaced, Pc.down]

omit [DecidableEq θ] in
/-- On a stream that has come further than the connection the client is running. -/
theorem stop_of_stage (h : Opened s) (fresh : s.stage ≠ .fresh)
    (further : s.stage = .connected → s.threads none ≠ .connectedClearStop) : s.stop = false := by
  by_contra stopped
  obtain stage | ⟨stage, here⟩ := h.stopped (by simpa using stopped)
  · exact fresh stage
  · exact further stage here

theorem send_step (h : Opened s) (taken : SendStep s e t) : Opened t := by
  cases taken with
  | unready => exact h
  | testReady | stopped | testStop | queueBusy | queueFree =>
      exact h.still (by simp [State.goto]) rfl rfl rfl
  | @doWriteNone i here | @doWriteFront i _ _ here | @asyncWrite i _ here =>
      cases i with
      | none =>
          exact h.plain here (by simp) (by simp [State.goto, Pc.plain, Pc.replaced]) rfl rfl rfl
      | some i => exact h.still (by simp [State.goto]) rfl rfl rfl
  | onWrite here | writeRelease here =>
      exact h.plain here (by simp) (by simp [State.goto, Pc.plain, Pc.replaced]) rfl rfl rfl
  | @writePop ec here =>
      refine h.plain here (by simp) ?_ rfl rfl rfl
      cases ec <;> simp [State.goto, Pc.plain, Pc.replaced]

/-- A handler that the network calls goes to a plain place. -/
theorem completes (h : Opened s) {op : Op} {ec : Bool} {pc : Pc μ} (idle : s.threads none = .idle)
    (done : Completes s op ec t) (stage : t.stage = s.stage) (after : pc.plain = true) :
    Opened (t.goto none pc) := by
  obtain ⟨-, -, -, -, ready, stop, -⟩ := done.frame
  exact h.plain idle (by simp) (by simpa [State.goto] using after) stage ready stop

/-- The link keeps it unless the owner calls `close`. -/
theorem link_step (h : Opened s) (taken : LinkStep s e t) (running : e ≠ .closed) :
    Opened t := by
  cases taken with
  | writeStopped here | writeReconnect here | connectedHandshake here | startRead here
  | readDataReady here | readStopped here | readAgain here | readFailedStopped here
  | readFailedReconnect here | reconnectConnect here =>
      exact h.plain here (by simp)
        (by simp [State.goto, State.start, Pc.plain, Pc.replaced]) rfl rfl rfl
  | onResolved idle done =>
      obtain ⟨-, -, -, threads, ready, stop, -⟩ := done.frame
      exact h.still (congrFun threads none) done.stage.2 ready stop
  | onConnected idle done =>
      obtain ⟨-, -, -, -, ready, stop, -⟩ := done.frame
      refine ⟨fun _ => Or.inr ⟨done.stage.2, State.goto_self ..⟩, ?_, ?_, ?_, ?_⟩
      · simp [State.goto]
      · simp [State.goto, Pc.replaced]
      · simp [State.goto, Pc.down]
      · exact fun up => stop.trans (h.running (ready.symm.trans up))
  | connectedClearStop here =>
      exact of_stop rfl (by simp [State.goto, Pc.replaced]) (by simp [State.goto])
  | @onSslHandshake u ec idle done =>
      obtain ⟨-, -, -, threads, ready, stop, -⟩ := done.frame
      cases ec with
      | true => exact h.still (congrFun threads none) done.stage_of_error ready stop
      | false =>
          obtain ⟨able, stage⟩ := done.stage
          have connected : s.stage = .connected := by simpa [Op.able] using able
          have here : (u.start .handshake).threads none = .idle :=
            (congrFun threads none).trans idle
          refine of_stop (stop.trans ?_) (by simp [here, Pc.replaced]) (by simp [here])
          exact h.stop_of_stage (by simp [connected]) (by simp [idle])
  | onReady idle done =>
      obtain ⟨able, stage⟩ := done.stage
      obtain ⟨-, -, -, -, ready, stop, -⟩ := done.frame
      have secured : s.stage = .secured := by simpa [Op.able] using able
      refine of_stop (stop.trans ?_) (by simp [State.goto, Pc.replaced]) fun _ => stage
      exact h.stop_of_stage (by simp [secured]) (by simp [idle])
  | readySet here =>
      have established := h.opening here
      refine of_stop ?_ (by simp [State.goto, Pc.replaced]) (by simp [State.goto])
      exact h.stop_of_stage (by simp [established]) (by simp [here])
  | onRead idle done => exact h.completes idle done done.stage.2 rfl
  | onReadFailed idle done => exact h.completes idle done done.stage_of_error rfl
  | onFailed idle _ done => exact h.completes idle done done.stage_of_error rfl
  | onTlsextFailed idle done => exact h.completes idle done done.stage.2 rfl
  | reconnectStream here =>
      refine ⟨fun _ => Or.inl rfl, ?_, fun _ => rfl, ?_, h.running⟩
      · simp [State.goto]
      · simp [State.goto, Pc.down]
  | reconnectClearReady here =>
      have fresh := h.replaced (by simp [here, Pc.replaced])
      exact ⟨fun _ => Or.inl fresh, by simp [State.goto], fun _ => fresh, fun _ => rfl, by simp⟩
  | reconnectStopped here | reconnectRunning here =>
      have fresh := h.replaced (by simp [here, Pc.replaced])
      have down := h.down (by simp [here, Pc.down])
      exact ⟨fun _ => Or.inl fresh, by simp [State.goto], fun _ => fresh, fun _ => down, h.running⟩
  | reconnectClose here =>
      have fresh := h.replaced (by simp [here, Pc.replaced])
      have down := h.down (by simp [here, Pc.down])
      refine ⟨fun _ => Or.inl fresh, by simp [State.goto], fun _ => fresh, fun _ => down, ?_⟩
      exact fun up => absurd (down.symm.trans up) Bool.false_ne_true
  | ownerClose => exact absurd rfl running

theorem step (h : Opened s) (taken : Step s e t) (running : e ≠ .closed) : Opened t := by
  cases taken with
  | send taken => exact h.send_step taken
  | link taken => exact h.link_step taken running

end Opened

/-! ## One session -/

theorem handed_snoc (events : List (Event μ)) (e : Event μ) :
    handed (events ++ [e]) = match e with
      | .onReady => []
      | .wrote session data => handed events ++ [(session, data)]
      | _ => handed events := by
  cases e <;> simp [handed]

/-- Since a string was handed over there was no `on_ready`. -/
theorem exists_of_mem_handed {entry : Nat × Option μ} (member : entry ∈ handed events) :
    ∃ before after, events = before ++ .wrote entry.1 entry.2 :: after ∧ .onReady ∉ after := by
  induction events using List.reverseRecOn with
  | nil => cases member
  | append_singleton events e ih =>
      have longer (other : e ≠ .onReady) (earlier : entry ∈ handed events) :
          ∃ before after, events ++ [e] = before ++ .wrote entry.1 entry.2 :: after ∧
            .onReady ∉ after := by
        obtain ⟨before, after, rfl, same⟩ := ih earlier
        exact ⟨before, after ++ [e], by simp, by simp [same, Ne.symm other]⟩
      rw [handed_snoc] at member
      cases e with
      | onReady => cases member
      | wrote session data =>
          obtain earlier | rfl := by simpa using member
          · exact longer (by simp) earlier
          · exact ⟨events, [], rfl, List.not_mem_nil⟩
      | _ => exact longer (by simp) member

theorem mem_written_of_handed {entry : Nat × Option μ} (member : entry ∈ handed events) :
    entry.2 ∈ written events := by
  obtain ⟨before, after, rfl, -⟩ := exists_of_mem_handed member
  simp [written]

/-- A client that is ready after a step other than `on_ready` was ready before, with the same
stream. -/
structure SameSession (s t : State θ μ) : Prop where
  ready : s.ready = true
  outside : (s.threads none).replaced = false
  session : t.session = s.session

theorem SendStep.sameSession (taken : SendStep s e t) (ready : t.ready = true)
    (outside : (t.threads none).replaced = false) : SameSession s t := by
  cases taken with
  | unready => exact ⟨ready, outside, rfl⟩
  | testReady | stopped | testStop | queueBusy | queueFree =>
      exact ⟨ready, by simpa [State.goto] using outside, rfl⟩
  | @doWriteNone i here | @doWriteFront i _ _ here | @asyncWrite i _ here =>
      refine ⟨ready, ?_, rfl⟩
      cases i with
      | none => simp [here, Pc.replaced]
      | some i => simpa [State.goto] using outside
  | onWrite here | writePop here | writeRelease here =>
      exact ⟨ready, by simp [here, Pc.replaced], rfl⟩

theorem LinkStep.sameSession (h : Opened s) (taken : LinkStep s e t) (other : e ≠ .onReady)
    (ready : t.ready = true) (outside : (t.threads none).replaced = false) : SameSession s t := by
  cases taken with
  | writeStopped here | writeReconnect here | connectedHandshake here | startRead here
  | readDataReady here | readStopped here | readAgain here | readFailedStopped here
  | readFailedReconnect here | connectedClearStop here =>
      exact ⟨ready, by simp [here, Pc.replaced], rfl⟩
  | onResolved idle done | onConnected idle done | onSslHandshake idle done | onReady idle done
  | onRead idle done | onReadFailed idle done | onTlsextFailed idle done =>
      obtain ⟨-, -, -, -, up, -, session⟩ := done.frame
      exact ⟨up.symm.trans ready, by simp [idle, Pc.replaced], session⟩
  | onFailed idle _ done =>
      obtain ⟨-, -, -, -, up, -, session⟩ := done.frame
      exact ⟨up.symm.trans ready, by simp [idle, Pc.replaced], session⟩
  | readySet => exact absurd rfl other
  | reconnectStream | reconnectStopped | reconnectRunning | reconnectClose =>
      simp [State.goto, Pc.replaced] at outside
  | reconnectClearReady => cases ready
  | reconnectConnect here =>
      have down := h.down (by simp [here, Pc.down])
      exact absurd (down.symm.trans ready) Bool.false_ne_true
  | ownerClose => exact ⟨ready, outside, rfl⟩

theorem Step.sameSession (h : Opened s) (taken : Step s e t) (other : e ≠ .onReady)
    (ready : t.ready = true) (outside : (t.threads none).replaced = false) : SameSession s t := by
  cases taken with
  | send taken => exact taken.sameSession ready outside
  | link taken => exact taken.sameSession h other ready outside

/-- Strings are handed to the current stream. -/
theorem Step.wrote {session : Nat} {data : Option μ} (taken : Step s (.wrote session data) t) :
    session = s.session := by
  cases taken with
  | send taken =>
      cases taken
      rfl
  | link taken => cases taken

/-- What was handed over since `on_ready` went to the current stream. -/
def OneSession (events : List (Event μ)) (s : State θ μ) : Prop :=
  s.ready = true → (s.threads none).replaced = false →
    ∀ entry ∈ handed events, entry.1 = s.session

theorem OneSession.step (h : OneSession events s) (opened : Opened s) (taken : Step s e t) :
    OneSession (events ++ [e]) t := by
  intro ready outside entry member
  by_cases fresh : e = .onReady
  · subst fresh
    simp [handed_snoc] at member
  · have same := taken.sameSession opened fresh ready outside
    have earlier := h same.ready same.outside
    rw [same.session]
    rw [handed_snoc] at member
    cases e with
    | onReady => exact absurd rfl fresh
    | wrote session data =>
        obtain before | rfl := by simpa using member
        · exact earlier entry before
        · exact taken.wrote
    | _ => exact earlier entry member

/-- Only `on_ready` sets `ready_`. -/
theorem Step.ready_of (taken : Step s e t) (other : e ≠ .onReady) (ready : t.ready = true) :
    s.ready = true := by
  cases taken with
  | send taken => cases taken <;> exact ready
  | link taken =>
      cases taken with
      | onResolved _ done | onConnected _ done | onSslHandshake _ done | onReady _ done
      | onRead _ done | onReadFailed _ done | onTlsextFailed _ done =>
          obtain ⟨-, -, -, -, up, -⟩ := done.frame
          exact up.symm.trans ready
      | onFailed _ _ done =>
          obtain ⟨-, -, -, -, up, -⟩ := done.frame
          exact up.symm.trans ready
      | readySet => exact absurd rfl other
      | reconnectClearReady => cases ready
      | _ => exact ready

/-! ## What a sender has begun -/

/-- When the baton has left the senders, a string was written. -/
def Begun (events : List (Event μ)) (s : State θ μ) : Prop :=
  s.writes ≠ 0 ∨ (s.threads none).holds = true → written events ≠ []

omit [DecidableEq θ] in
theorem Begun.mono (h : Begun events s) (writes : t.writes = s.writes)
    (handler : (t.threads none).holds = true → (s.threads none).holds = true) :
    Begun (events ++ [e]) t := by
  intro begun
  rw [written_append]
  refine List.append_ne_nil_of_left_ne_nil ?_ _
  refine h (begun.imp ?_ handler)
  exact fun some => writes ▸ some

theorem Begun.step (h : Begun events s) (taken : Step s e t) : Begun (events ++ [e]) t := by
  cases taken with
  | send taken =>
      cases taken with
      | unready => exact h.mono rfl id
      | testReady | stopped | testStop | queueBusy | queueFree =>
          exact h.mono rfl (by simp [State.goto])
      | @doWriteNone i here | @doWriteFront i _ _ here =>
          refine h.mono rfl ?_
          cases i with
          | none => simp [State.goto, here, Pc.holds]
          | some i => simp [State.goto]
      | asyncWrite => simp [Begun, written]
      | onWrite idle started =>
          intro _
          rw [written_append]
          refine List.append_ne_nil_of_left_ne_nil (h (Or.inl ?_)) _
          exact fun none => Nat.succ_ne_zero _ (started.symm.trans none)
      | writePop here | writeRelease here => exact h.mono rfl (by simp [here, Pc.holds])
  | link taken =>
      have aside := taken.aside
      refine h.mono aside.writes ?_
      intro holds
      obtain same | ⟨-, after⟩ := aside.threads none
      · exact same ▸ holds
      · exact absurd (after.symm.trans holds) Bool.false_ne_true

/-- The string that a thread inside `send` has not queued yet. -/
def Pc.sending : Pc μ → List μ
  | .sendTestStop data | .sendQueue data => [data]
  | _ => []

/-- A step after the start of `send` queues the string of its thread or keeps it, unless
`stop_` makes it drop it. -/
theorem SendStep.accounts (taken : SendStep s e t) (internal : ∀ data, e ≠ .sending data) (i : θ)
    (only : ∀ j, j = i) :
    queued [e] ++ (t.threads (some i)).sending = (s.threads (some i)).sending ∨
      (s.stop = true ∧ queued [e] = [] ∧ (t.threads (some i)).sending = []) := by
  cases taken with
  | unready | testReady => exact absurd rfl (internal _)
  | @stopped j data here stop =>
      obtain rfl := only j
      exact Or.inr ⟨stop, rfl, by simp [State.goto, Pc.sending]⟩
  | @testStop j data here | @queueBusy j data here | @queueFree j data here =>
      obtain rfl := only j
      exact Or.inl (by simp [State.goto, here, Pc.sending, queued])
  | @doWriteNone j here | @doWriteFront j _ _ here | @asyncWrite j _ here =>
      refine Or.inl ?_
      cases j with
      | none => simp [State.goto, queued]
      | some j =>
          obtain rfl := only j
          simp [State.goto, here, Pc.sending, queued]
  | onWrite | writePop | writeRelease => exact Or.inl (by simp [State.goto, queued])

/-- The link leaves the other threads alone. -/
theorem LinkStep.threads_some (taken : LinkStep s e t) (i : θ) :
    t.threads (some i) = s.threads (some i) := by
  cases taken with
  | onResolved _ done | onConnected _ done | onSslHandshake _ done | onReady _ done
  | onRead _ done | onReadFailed _ done | onTlsextFailed _ done =>
      obtain ⟨-, -, -, threads, -⟩ := done.frame
      simp [State.goto, State.start, threads]
  | onFailed _ _ done =>
      obtain ⟨-, -, -, threads, -⟩ := done.frame
      simp [State.goto, threads]
  | ownerClose => rfl
  | _ => simp [State.goto, State.start, State.newStream]

end RazorCrypto.Ws
