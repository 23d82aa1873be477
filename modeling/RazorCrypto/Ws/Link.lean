import RazorCrypto.Ws.Client

/-!
# The link of the WebSocket client

What the handlers do from the resolver to the first read, and from a read error through
`re_connect` back to the resolver, when nothing else happens in between. These runs leave the
queue and the senders as they are.
-/

universe u v

namespace RazorCrypto.Ws

open Transition

variable {θ : Type u} {μ : Type v} [DecidableEq θ] {s t : State θ μ} {events : List (Event μ)}

/-- A run of the link is a run of the client. -/
theorem run_link (run : Run LinkStep s events t) : Run Step s events t := by
  simpa using run.map (f := id) .link

/-- From `s` to `t` all stays that the link does not change. -/
structure Frame (s t : State θ μ) : Prop where
  queue : t.mSendQueue = s.mSendQueue
  busy : t.mWriteInProgress = s.mWriteInProgress
  writes : t.writes = s.writes
  session : t.session = s.session
  threads : t.threads = s.threads

omit [DecidableEq θ] in
theorem Frame.trans {u : State θ μ} (first : Frame s t) (second : Frame t u) : Frame s u :=
  ⟨second.queue.trans first.queue, second.busy.trans first.busy,
    second.writes.trans first.writes, second.session.trans first.session,
    second.threads.trans first.threads⟩

/-- One operation under way and nothing else. -/
def only (op : Op) : Op → Nat := fun op' => if op' = op then 1 else 0

/-- From `s` to `t` the operation `op` succeeded and `next` was started. -/
structure Advanced (op next : Op) (s t : State θ μ) : Prop extends Frame s t where
  aborted : t.aborted = s.aborted
  started : ∃ n, t.pending next = n + 1
  alone : s.pending = only op → t.pending = only next

omit [DecidableEq θ] in
theorem Advanced.trans {u : State θ μ} {op mid next : Op} (first : Advanced op mid s t)
    (second : Advanced mid next t u) : Advanced op next s u :=
  ⟨first.toFrame.trans second.toFrame, second.aborted.trans first.aborted, second.started,
    fun alone => second.alone (first.alone alone)⟩

variable {n : Nat}

omit [DecidableEq θ] in
/-- What `Completes` and `start` do to the operations under way. -/
theorem Advanced.of_pending {op next : Op} (ne : op ≠ next) (under : s.pending op = n + 1)
    (frame : Frame s t) (aborted : t.aborted = s.aborted)
    (pending : t.pending = Function.update (Function.update s.pending op n) next
      (Function.update s.pending op n next + 1)) : Advanced op next s t := by
  refine ⟨frame, aborted, ⟨_, pending ▸ Function.update_self ..⟩, ?_⟩
  intro alone
  rw [alone] at under pending
  have none : n = 0 := by simpa [only] using under.symm
  subst none
  rw [pending]
  funext op'
  by_cases this : op' = next
  · subst this
    simp [only, ne.symm]
  · by_cases that : op' = op
    · simp [only, that, ne]
    · simp [only, this, that]

theorem run_resolved (idle : s.threads none = .idle) (resolving : s.pending .resolve = n + 1) :
    ∃ t, Run LinkStep s [.attempt] t ∧ Advanced .resolve .connect s t := by
  have resolved := LinkStep.onResolved idle (.succeeded resolving rfl)
  exact ⟨_, .single resolved, .of_pending (by simp) resolving ⟨rfl, rfl, rfl, rfl, rfl⟩ rfl rfl⟩

theorem run_connected (idle : s.threads none = .idle) (connecting : s.pending .connect = n + 1) :
    ∃ t, Run LinkStep s [.silent, .silent, .silent] t ∧ Advanced .connect .sslHandshake s t ∧
      t.stop = false ∧ t.stage = .connected := by
  have first := Run.single (LinkStep.onConnected idle (.succeeded connecting rfl))
  have second := first.snoc (.connectedClearStop (State.goto_self ..))
  have third := second.snoc (.connectedHandshake (by simp [State.goto]))
  refine ⟨_, third, .of_pending (by simp) connecting ⟨rfl, rfl, rfl, rfl, ?_⟩ rfl rfl, rfl, rfl⟩
  simp [State.goto, State.start, ← idle]

theorem run_secured (idle : s.threads none = .idle) (securing : s.pending .sslHandshake = n + 1)
    (connected : s.stage = .connected) :
    ∃ t, Run LinkStep s [.silent] t ∧ Advanced .sslHandshake .handshake s t ∧
      t.stop = s.stop ∧ t.stage = .secured := by
  have able : Op.able .sslHandshake s.stage = true := by simp [Op.able, connected]
  have first := LinkStep.onSslHandshake idle (.succeeded securing able)
  exact ⟨_, .single first, .of_pending (by simp) securing ⟨rfl, rfl, rfl, rfl, rfl⟩ rfl rfl,
    rfl, rfl⟩

theorem run_established (idle : s.threads none = .idle) (opening : s.pending .handshake = n + 1)
    (secured : s.stage = .secured) :
    ∃ t, Run LinkStep s [.silent, .onReady, .silent] t ∧ Advanced .handshake .read s t ∧
      t.stop = s.stop ∧ t.ready = true ∧ t.stage = .established := by
  have able : Op.able .handshake s.stage = true := by simp [Op.able, secured]
  have first := Run.single (LinkStep.onReady idle (.succeeded opening able))
  have second := first.snoc (.readySet (State.goto_self ..))
  have third := second.snoc (.startRead (by simp [State.goto]))
  refine ⟨_, third, .of_pending (by simp) opening ⟨rfl, rfl, rfl, rfl, ?_⟩ rfl rfl, rfl, rfl, rfl⟩
  simp [State.goto, State.start, ← idle]

/-- `t` is `s` with the connection established and a read started. -/
structure Linked (s t : State θ μ) : Prop extends Advanced .resolve .read s t where
  ready : t.ready = true
  stop : t.stop = false
  stage : t.stage = .established

/-- A client that waits for its resolver can come up with nothing else happening. -/
theorem run_linked (idle : s.threads none = .idle) (resolving : s.pending .resolve = n + 1) :
    ∃ t, Run LinkStep s
      [.attempt, .silent, .silent, .silent, .silent, .silent, .onReady, .silent] t ∧
        Linked s t := by
  obtain ⟨a, resolved, first⟩ := run_resolved idle resolving
  have idle : a.threads none = .idle := first.threads ▸ idle
  obtain ⟨n, connecting⟩ := first.started
  obtain ⟨b, connected, second, stop, stage⟩ := run_connected idle connecting
  have idle : b.threads none = .idle := second.threads ▸ idle
  obtain ⟨n, securing⟩ := second.started
  obtain ⟨c, secured, third, stop', stage⟩ := run_secured idle securing stage
  have idle : c.threads none = .idle := third.threads ▸ idle
  obtain ⟨n, opening⟩ := third.started
  obtain ⟨d, established, fourth, stop'', ready, stage⟩ := run_established idle opening stage
  have advanced := ((first.trans second).trans third).trans fourth
  refine ⟨d, ((resolved.trans connected).trans secured).trans established, ?_⟩
  exact ⟨advanced, ready, (stop''.trans stop').trans stop, stage⟩

/-! ## A link that breaks -/

/-- After a read error the client makes a new stream and waits for its resolver. -/
structure Lost (s t : State θ μ) : Prop where
  queue : t.mSendQueue = s.mSendQueue
  busy : t.mWriteInProgress = s.mWriteInProgress
  writes : t.writes = s.writes
  session : t.session = s.session + 1
  threads : t.threads = Function.update s.threads none .idle
  ready : t.ready = false
  resolving : ∃ m, t.pending .resolve = m + 1

/-- `re_connect` on a running client. -/
theorem run_reconnect {onWrite : Bool} (here : s.threads none = .reconnectStream onWrite)
    (stop : s.stop = false) :
    ∃ t, Run LinkStep s [.silent, .silent, .silent, .silent, .attempt] t ∧ Lost s t := by
  have replaced := Run.single (LinkStep.reconnectStream here)
  have cleared := replaced.snoc (.reconnectClearReady (State.goto_self ..))
  have tested := cleared.snoc (.reconnectRunning (by simp [State.goto]) stop)
  have closed := tested.snoc (.reconnectClose (State.goto_self ..))
  have connects := closed.snoc (.reconnectConnect (by simp [State.goto]))
  refine ⟨_, connects, rfl, rfl, rfl, rfl, ?_, rfl, _, State.start_self ..⟩
  simp [State.goto, State.start, State.newStream]

/-- A read error on a running client. -/
theorem run_lost (idle : s.threads none = .idle) (reading : s.pending .read = n + 1)
    (stop : s.stop = false) :
    ∃ t, Run LinkStep s [.silent, .silent, .silent, .silent, .silent, .silent, .attempt] t ∧
      Lost s t := by
  have failed := Run.single (LinkStep.onReadFailed idle (.failed reading))
  let u := ({ s with pending := Function.update s.pending .read n }.goto none .readFailed).goto
    none (.reconnectStream false)
  have called : Run LinkStep s [.silent, .silent] u :=
    failed.snoc (.readFailedReconnect (State.goto_self ..) stop)
  obtain ⟨t, reconnects, lost⟩ := run_reconnect (s := u) (State.goto_self ..) stop
  refine ⟨t, called.trans reconnects, lost.queue, lost.busy, lost.writes, lost.session, ?_,
    lost.ready, lost.resolving⟩
  rw [lost.threads]
  simp [u, State.goto]

end RazorCrypto.Ws
