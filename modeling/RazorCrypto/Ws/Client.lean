import Mathlib.Logic.Function.Basic
import RazorCrypto.Foundation.Transition

/-!
# The WebSocket client

`ws_ssl_client` runs its handlers on one thread, that of its `io_context`, one after the
other. Any number of threads call `send`. The members `ready_`, `stop_`, `m_send_queue` and
`m_write_in_progress` are shared between them: each access is a step of its own, and a
section under `m_send_mutex` is one step.

The network completes the operations that were started, in any order and with any result,
but an operation only succeeds on a stream that has come as far as it needs. When
`re_connect` replaces the stream, what was started on the old one is aborted. Writes are only
counted, since `on_write` does not ask which stream they were made to.
-/

universe u v

namespace RazorCrypto.Ws

open Transition

/-- The asynchronous operations besides writes. -/
inductive Op
  | resolve
  | connect
  | sslHandshake
  | handshake
  | read
  deriving DecidableEq

/-- How far the stream `ws_` has come. -/
inductive Stage
  | fresh
  | connected
  | secured
  | established
  deriving DecidableEq

namespace Op

/-- Whether the operation can succeed on a stream. -/
def able : Op → Stage → Bool
  | sslHandshake, stage => stage = .connected
  | handshake, stage => stage = .secured
  | _, _ => true

/-- The stream after the operation succeeded. -/
def reached : Op → Stage → Stage
  | connect, _ => .connected
  | sslHandshake, _ => .secured
  | handshake, _ => .established
  | _, stage => stage

end Op

/-- What a thread does next. The flag of the first two parts of `re_connect` says whether
`on_write` called it. -/
inductive Pc (μ : Type v)
  | idle
  | sendTestStop (data : μ)
  | sendQueue (data : μ)
  | doWrite
  | asyncWrite (data : Option μ)
  | writePop (ec : Bool)
  | writeRelease
  | writeTestStop
  | connectedClearStop
  | connectedHandshake
  | readySet
  | startRead
  | readDataReady
  | readTestStop
  | readFailed
  | reconnectStream (onWrite : Bool)
  | reconnectClearReady (onWrite : Bool)
  | reconnectTestStop
  | reconnectClose
  | reconnectConnect

/-- `ws_ssl_client`, with its threads: `none` runs the handlers, the others call `send`. A
moved-out string of the queue is `none`. -/
structure State (θ : Type u) (μ : Type v) where
  mSendQueue : List (Option μ)
  mWriteInProgress : Bool
  ready : Bool
  stop : Bool
  session : Nat
  stage : Stage
  writes : Nat
  pending : Op → Nat
  aborted : Op → Nat
  threads : Option θ → Pc μ

/-- What is seen of a step. -/
inductive Event (μ : Type v)
  | silent
  | sending (data : μ)
  | queued (data : μ)
  | wrote (session : Nat) (data : Option μ)
  | attempt
  | onReady
  | onDataReady
  | gaveUp
  | closed

namespace State

variable {θ : Type u} {μ : Type v}

/-- A client after its owner called `connect` and `start_work`. -/
def connecting : State θ μ :=
  { mSendQueue := [], mWriteInProgress := false, ready := false, stop := true, session := 0,
    stage := .fresh, writes := 0, pending := fun op => if op = .resolve then 1 else 0,
    aborted := fun _ => 0, threads := fun _ => .idle }

variable [DecidableEq θ]

/-- A thread goes on with `pc`. -/
def goto (s : State θ μ) (i : Option θ) (pc : Pc μ) : State θ μ :=
  { s with threads := Function.update s.threads i pc }

/-- An operation is started on the current stream. -/
def start (s : State θ μ) (op : Op) : State θ μ :=
  { s with pending := Function.update s.pending op (s.pending op + 1) }

theorem goto_self (s : State θ μ) (i : Option θ) (pc : Pc μ) : (s.goto i pc).threads i = pc :=
  Function.update_self ..

theorem goto_goto (s : State θ μ) (i : Option θ) (pc pc' : Pc μ) :
    (s.goto i pc).goto i pc' = s.goto i pc' := by
  simp [goto]

/-- A thread that is back where it was. -/
theorem update_threads_eq {s : State θ μ} {i : Option θ} {pc : Pc μ} (here : s.threads i = pc) :
    Function.update s.threads i pc = s.threads :=
  here ▸ Function.update_eq_self i s.threads

omit [DecidableEq θ] in
theorem start_self (s : State θ μ) (op : Op) : (s.start op).pending op = s.pending op + 1 :=
  Function.update_self ..

/-- `re_connect` makes a new stream. The resolver goes on, all else is aborted. -/
def newStream (s : State θ μ) : State θ μ :=
  { s with
    session := s.session + 1
    stage := .fresh
    pending := fun op => if op = .resolve then s.pending op else 0
    aborted := fun op => if op = .resolve then s.aborted op else s.aborted op + s.pending op }

/-- `close`, called by the owner. -/
def close (s : State θ μ) : State θ μ := { s with stop := true }

end State

variable {θ : Type u} {μ : Type v} [DecidableEq θ]

/-- The network completes an operation, with an error if the flag is set. -/
inductive Completes (s : State θ μ) (op : Op) : Bool → State θ μ → Prop
  | succeeded {n} (started : s.pending op = n + 1) (able : op.able s.stage = true) :
      Completes s op false { s with
        pending := Function.update s.pending op n
        stage := op.reached s.stage }
  | failed {n} (started : s.pending op = n + 1) :
      Completes s op true { s with pending := Function.update s.pending op n }
  | aborted {n} (started : s.aborted op = n + 1) :
      Completes s op true { s with aborted := Function.update s.aborted op n }

omit [DecidableEq θ] in
/-- What the network leaves alone. -/
theorem Completes.frame {op : Op} {ec : Bool} {s t : State θ μ}
    (done : Completes s op ec t) :
    t.mSendQueue = s.mSendQueue ∧ t.mWriteInProgress = s.mWriteInProgress ∧
      t.writes = s.writes ∧ t.threads = s.threads ∧ t.ready = s.ready ∧ t.stop = s.stop ∧
      t.session = s.session := by
  cases done <;> exact ⟨rfl, rfl, rfl, rfl, rfl, rfl, rfl⟩

/-- A step of `send`, of `do_write`, or of `on_write` until it gives up writing. -/
inductive SendStep : State θ μ → Event μ → State θ μ → Prop
  | unready {s i} (idle : s.threads (some i) = .idle) (unready : s.ready = false) (data : μ) :
      SendStep s (.sending data) s
  | testReady {s i} (idle : s.threads (some i) = .idle) (ready : s.ready = true) (data : μ) :
      SendStep s (.sending data) (s.goto (some i) (.sendTestStop data))
  | stopped {s i data} (here : s.threads (some i) = .sendTestStop data) (stop : s.stop = true) :
      SendStep s .silent (s.goto (some i) .idle)
  | testStop {s i data} (here : s.threads (some i) = .sendTestStop data) (stop : s.stop = false) :
      SendStep s .silent (s.goto (some i) (.sendQueue data))
  | queueBusy {s i data} (here : s.threads (some i) = .sendQueue data)
      (busy : s.mWriteInProgress = true) :
      SendStep s (.queued data)
        { s.goto (some i) .idle with mSendQueue := s.mSendQueue ++ [some data] }
  | queueFree {s i data} (here : s.threads (some i) = .sendQueue data)
      (free : s.mWriteInProgress = false) :
      SendStep s (.queued data)
        { s.goto (some i) .doWrite with
          mSendQueue := s.mSendQueue ++ [some data]
          mWriteInProgress := true }
  | doWriteNone {s i} (here : s.threads i = .doWrite)
      (nothing : s.mSendQueue = [] ∨ s.ready = false) :
      SendStep s .silent { s.goto i .idle with mWriteInProgress := false }
  | doWriteFront {s i front rest} (here : s.threads i = .doWrite)
      (queue : s.mSendQueue = front :: rest) (ready : s.ready = true) :
      SendStep s .silent { s.goto i (.asyncWrite front) with mSendQueue := none :: rest }
  | asyncWrite {s i data} (here : s.threads i = .asyncWrite data) :
      SendStep s (.wrote s.session data) { s.goto i .idle with writes := s.writes + 1 }
  | onWrite {s n} (idle : s.threads none = .idle) (started : s.writes = n + 1) (ec : Bool) :
      SendStep s .silent { s.goto none (.writePop ec) with writes := n }
  | writePop {s ec} (here : s.threads none = .writePop ec) :
      SendStep s .silent
        { s.goto none (if ec then .writeRelease else .doWrite) with
          mSendQueue := s.mSendQueue.tail }
  | writeRelease {s} (here : s.threads none = .writeRelease) :
      SendStep s .silent { s.goto none .writeTestStop with mWriteInProgress := false }

/-- A step of `on_write` after that, of another handler, of `re_connect` or of the owner. -/
inductive LinkStep : State θ μ → Event μ → State θ μ → Prop
  | writeStopped {s} (here : s.threads none = .writeTestStop) (stop : s.stop = true) :
      LinkStep s .gaveUp (s.goto none .idle)
  | writeReconnect {s} (here : s.threads none = .writeTestStop) (stop : s.stop = false) :
      LinkStep s .silent (s.goto none (.reconnectStream true))
  | onResolved {s t} (idle : s.threads none = .idle) (done : Completes s .resolve false t) :
      LinkStep s .attempt (t.start .connect)
  | onConnected {s t} (idle : s.threads none = .idle) (done : Completes s .connect false t) :
      LinkStep s .silent (t.goto none .connectedClearStop)
  | connectedClearStop {s} (here : s.threads none = .connectedClearStop) :
      LinkStep s .silent { s.goto none .connectedHandshake with stop := false }
  | connectedHandshake {s} (here : s.threads none = .connectedHandshake) :
      LinkStep s .silent ((s.goto none .idle).start .sslHandshake)
  | onSslHandshake {s t ec} (idle : s.threads none = .idle)
      (done : Completes s .sslHandshake ec t) : LinkStep s .silent (t.start .handshake)
  | onReady {s t} (idle : s.threads none = .idle) (done : Completes s .handshake false t) :
      LinkStep s .silent (t.goto none .readySet)
  | readySet {s} (here : s.threads none = .readySet) :
      LinkStep s .onReady { s.goto none .startRead with ready := true }
  | startRead {s} (here : s.threads none = .startRead) :
      LinkStep s .silent ((s.goto none .idle).start .read)
  | onRead {s t} (idle : s.threads none = .idle) (done : Completes s .read false t) :
      LinkStep s .silent (t.goto none .readDataReady)
  | readDataReady {s} (here : s.threads none = .readDataReady) :
      LinkStep s .onDataReady (s.goto none .readTestStop)
  | readStopped {s} (here : s.threads none = .readTestStop) (stop : s.stop = true) :
      LinkStep s .silent (s.goto none .idle)
  | readAgain {s} (here : s.threads none = .readTestStop) (stop : s.stop = false) :
      LinkStep s .silent (s.goto none .startRead)
  | onReadFailed {s t} (idle : s.threads none = .idle) (done : Completes s .read true t) :
      LinkStep s .silent (t.goto none .readFailed)
  | readFailedStopped {s} (here : s.threads none = .readFailed) (stop : s.stop = true) :
      LinkStep s .silent (s.goto none .idle)
  | readFailedReconnect {s} (here : s.threads none = .readFailed) (stop : s.stop = false) :
      LinkStep s .silent (s.goto none (.reconnectStream false))
  | onFailed {s t op} (idle : s.threads none = .idle)
      (calls : op = .resolve ∨ op = .connect ∨ op = .handshake) (done : Completes s op true t) :
      LinkStep s .silent (t.goto none (.reconnectStream false))
  | onTlsextFailed {s t} (idle : s.threads none = .idle) (done : Completes s .resolve false t) :
      LinkStep s .silent (t.goto none (.reconnectStream false))
  | reconnectStream {s onWrite} (here : s.threads none = .reconnectStream onWrite) :
      LinkStep s .silent (s.newStream.goto none (.reconnectClearReady onWrite))
  | reconnectClearReady {s onWrite} (here : s.threads none = .reconnectClearReady onWrite) :
      LinkStep s .silent { s.goto none .reconnectTestStop with ready := false }
  | reconnectStopped {s} (here : s.threads none = .reconnectTestStop) (stop : s.stop = true) :
      LinkStep s .silent (s.goto none .reconnectConnect)
  | reconnectRunning {s} (here : s.threads none = .reconnectTestStop) (stop : s.stop = false) :
      LinkStep s .silent (s.goto none .reconnectClose)
  | reconnectClose {s} (here : s.threads none = .reconnectClose) :
      LinkStep s .silent { s.goto none .reconnectConnect with stop := true }
  | reconnectConnect {s} (here : s.threads none = .reconnectConnect) :
      LinkStep s .attempt ((s.goto none .idle).start .resolve)
  | ownerClose {s} : LinkStep s .closed s.close

/-- One step of the client. -/
inductive Step (s : State θ μ) (e : Event μ) (t : State θ μ) : Prop
  | send (taken : SendStep s e t)
  | link (taken : LinkStep s e t)

end RazorCrypto.Ws
