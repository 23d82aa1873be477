import Mathlib.Data.List.Sublists
import RazorCrypto.Ws.Link

/-!
# The order of WebSocket writes

`m_write_in_progress` is a baton. It is set exactly while one thread or one outstanding
`async_write` holds it: from the critical section of `send` that sets it, through `do_write`,
the write and `on_write`, to the section that clears it. Only the holder moves a string out of
the queue or pops it, so that the strings are written one after the other, in the order of
the queue and each at most once.
-/

universe u v

namespace RazorCrypto.Ws

open Transition

variable {θ : Type u} {μ : Type v} [DecidableEq θ]

/-- A thread that holds the baton. -/
def Pc.holds : Pc μ → Bool
  | .doWrite | .asyncWrite _ | .writePop _ | .writeRelease => true
  | _ => false

/-- The strings that `send` queued in a run, in order. -/
def queued (events : List (Event μ)) : List μ :=
  events.filterMap fun
    | .queued data => some data
    | _ => none

/-- The strings handed to `async_write` in a run, in order. -/
def written (events : List (Event μ)) : List (Option μ) :=
  events.filterMap fun
    | .wrote _ data => some data
    | _ => none

theorem queued_append (events more : List (Event μ)) :
    queued (events ++ more) = queued events ++ queued more :=
  List.filterMap_append

theorem written_append (events more : List (Event μ)) :
    written (events ++ more) = written events ++ written more :=
  List.filterMap_append

variable {s t : State θ μ} {e : Event μ}

/-- From `s` to `t` the queue and the holders of the baton stay as they are. -/
structure Aside (s t : State θ μ) : Prop where
  queue : t.mSendQueue = s.mSendQueue
  busy : t.mWriteInProgress = s.mWriteInProgress
  writes : t.writes = s.writes
  threads : ∀ i, t.threads i = s.threads i ∨
    ((s.threads i).holds = false ∧ (t.threads i).holds = false)

/-- A thread that neither holds nor takes the baton moves on. -/
theorem goto_aside {i : Option θ} {pc pc' : Pc μ} (here : s.threads i = pc)
    (before : pc.holds = false) (after : pc'.holds = false) : Aside s (s.goto i pc') := by
  refine ⟨rfl, rfl, rfl, ?_⟩
  intro j
  by_cases own : j = i
  · subst own
    refine Or.inr ⟨here ▸ before, ?_⟩
    simpa [State.goto] using after
  · exact Or.inl (Function.update_of_ne own ..)

/-- Between two steps of the handler thread the network completed an operation. -/
theorem Completes.aside {op : Op} {ec : Bool} {pc : Pc μ} (done : Completes s op ec t)
    (idle : s.threads none = .idle) (after : pc.holds = false) : Aside s (t.goto none pc) := by
  obtain ⟨queue, busy, writes, threads, -⟩ := done.frame
  have moved : Aside t (t.goto none pc) :=
    goto_aside ((congrFun threads none).trans idle) rfl after
  refine ⟨queue, busy, writes, ?_⟩
  simpa only [threads] using moved.threads

omit [DecidableEq θ] in
theorem Completes.aside_start {op next : Op} {ec : Bool} (done : Completes s op ec t) :
    Aside s (t.start next) := by
  obtain ⟨queue, busy, writes, threads, -⟩ := done.frame
  exact ⟨queue, busy, writes, fun i => Or.inl (congrFun threads i)⟩

/-- The link does nothing to the queue. -/
theorem LinkStep.aside (taken : LinkStep s e t) : Aside s t := by
  cases taken with
  | writeStopped here | writeReconnect here | readDataReady here | readStopped here
  | readAgain here | readFailedStopped here | readFailedReconnect here
  | reconnectStopped here | reconnectRunning here => exact goto_aside here rfl rfl
  | onConnected idle done | onReady idle done | onRead idle done | onReadFailed idle done
  | onFailed idle _ done | onTlsextFailed idle done => exact done.aside idle rfl
  | onResolved idle done | onSslHandshake idle done => exact done.aside_start
  | connectedClearStop here | readySet here | reconnectStream here | reconnectClearReady here
  | reconnectClose here | connectedHandshake here | startRead here | reconnectConnect here =>
      exact ⟨rfl, rfl, rfl, (goto_aside here rfl rfl).threads⟩
  | ownerClose => exact ⟨rfl, rfl, rfl, fun _ => Or.inl rfl⟩

theorem LinkStep.events (taken : LinkStep s e t) :
    queued [e] = [] ∧ written [e] = [] := by
  cases taken <;> exact ⟨rfl, rfl⟩

/-! ## The baton -/

/-- Who holds the baton: a thread or an outstanding write. -/
inductive Holder (θ : Type u)
  | nobody
  | thread (i : Option θ)
  | network

/-- Where the front string of the queue is: in the queue, with a thread that calls
`async_write` next, or handed over, when its moved-out place is still in the queue. -/
inductive Front (μ : Type v)
  | waiting
  | taken (data : Option μ)
  | handed

/-- Where a thread with the baton has the front string. -/
def Pc.front : Pc μ → Front μ
  | .asyncWrite data => .taken data
  | .writePop _ => .handed
  | _ => .waiting

namespace Holder

/-- The front string under a holder. -/
def front (threads : Option θ → Pc μ) : Holder θ → Front μ
  | nobody => .waiting
  | network => .handed
  | thread i => (threads i).front

/-- The writes outstanding under a holder. -/
def writes : Holder θ → Nat
  | network => 1
  | _ => 0

end Holder

/-- The strings queued in a run are those that were written and those in the queue. -/
inductive Ledger (events : List (Event μ)) : Front μ → List (Option μ) → Prop
  | waiting {done rest} (all : queued events = done ++ rest)
      (order : written events = done.map some) : Ledger events .waiting (rest.map some)
  | taken {done data rest} (all : queued events = done ++ data :: rest)
      (order : written events = done.map some) :
      Ledger events (.taken (some data)) (none :: rest.map some)
  | handed {done rest} (all : queued events = done ++ rest)
      (order : written events = done.map some) :
      Ledger events .handed (none :: rest.map some)

namespace Ledger

variable {events : List (Event μ)} {front : Front μ} {queue : List (Option μ)}

/-- A step that neither queues nor writes. -/
theorem silent (h : Ledger events front queue) (quiet : queued [e] = [] ∧ written [e] = []) :
    Ledger (events ++ [e]) front queue := by
  have queued_eq : queued (events ++ [e]) = queued events := by simp [queued_append, quiet.1]
  have written_eq : written (events ++ [e]) = written events := by simp [written_append, quiet.2]
  cases h with
  | waiting all order => exact waiting (queued_eq.trans all) (written_eq ▸ order)
  | taken all order => exact taken (queued_eq.trans all) (written_eq ▸ order)
  | handed all order => exact handed (queued_eq.trans all) (written_eq ▸ order)

/-- `send` queues a string behind the others, whoever has the front one. -/
theorem push (h : Ledger events front queue) (data : μ) :
    Ledger (events ++ [.queued data]) front (queue ++ [some data]) := by
  have queued_eq : queued (events ++ [.queued data]) = queued events ++ [data] := by
    simp [queued]
  have written_eq : written (events ++ [.queued data]) = written events := by
    simp [written]
  cases h with
  | @waiting done rest all order =>
      have longer := @waiting _ _ _ (rest ++ [data])
        (queued_eq.trans (by rw [all, List.append_assoc])) (written_eq ▸ order)
      simpa using longer
  | @taken done front rest all order =>
      have longer := @taken _ _ _ front (rest ++ [data])
        (queued_eq.trans (by rw [all, List.append_assoc, List.cons_append])) (written_eq ▸ order)
      simpa using longer
  | @handed done rest all order =>
      have longer := @handed _ _ _ (rest ++ [data])
        (queued_eq.trans (by rw [all, List.append_assoc])) (written_eq ▸ order)
      simpa using longer

/-- `do_write` moves the front string out, and it is not an emptied one. -/
theorem take {data : Option μ} (h : Ledger events .waiting (data :: queue)) :
    Ledger events (.taken data) (none :: queue) := by
  generalize whole : data :: queue = all at h
  cases h with
  | @waiting done rest all order =>
      cases rest with
      | nil => cases whole
      | cons first rest =>
          obtain ⟨rfl, rfl⟩ := List.cons.inj whole
          exact taken all order

/-- The string is handed to `async_write`. -/
theorem write {data : Option μ} (h : Ledger events (.taken data) queue) (session : Nat) :
    Ledger (events ++ [.wrote session data]) .handed queue := by
  cases h with
  | @taken done data rest all order =>
      have done_eq : queued events = (done ++ [data]) ++ rest := by simpa using all
      refine @handed _ _ (done ++ [data]) _ ?_ ?_
      · simpa [queued] using done_eq
      · have longer := congrArg (· ++ [some data]) order
        simpa [written] using longer

/-- `on_write` pops the emptied place. -/
theorem pop (h : Ledger events .handed queue) : Ledger events .waiting queue.tail := by
  cases h with
  | handed all order => exact waiting all order

theorem isPrefix (h : Ledger events front queue) :
    written events <+: (queued events).map some := by
  cases h with
  | waiting all order | taken all order | handed all order =>
      rw [all, List.map_append, order]
      exact List.prefix_append ..

theorem queue_eq_nil (h : Ledger events .waiting queue) (none : queued events = []) :
    queue = [] := by
  cases h with
  | @waiting done rest all order =>
      obtain ⟨-, rfl⟩ := List.append_eq_nil_iff.mp (all.symm.trans none)
      rfl

/-- With an empty queue everything was written. -/
theorem all_written (h : Ledger events front []) : written events = (queued events).map some := by
  generalize empty : [] = queue at h
  cases h with
  | @waiting done rest all order =>
      obtain rfl : rest = [] := by simpa using empty.symm
      rw [order, all, List.append_nil]
  | taken | handed => cases empty

end Ledger

/-- `holder` has the baton in the state `s` that a run came to. -/
structure Held (holder : Holder θ) (events : List (Event μ)) (s : State θ μ) : Prop where
  busy : s.mWriteInProgress = true ↔ holder ≠ .nobody
  writes : s.writes = holder.writes
  threads : ∀ i, (s.threads i).holds = true ↔ holder = .thread i
  ledger : Ledger events (holder.front s.threads) s.mSendQueue

omit [DecidableEq θ] in
theorem held_connecting : Held .nobody [] (State.connecting : State θ μ) := by
  refine ⟨by simp [State.connecting], rfl, ?_, ?_⟩
  · intro i
    simp [State.connecting, Pc.holds]
  · exact @Ledger.waiting _ _ [] [] rfl rfl

namespace Held

variable {holder : Holder θ} {events : List (Event μ)}

omit [DecidableEq θ] in
/-- A thread inside the baton's part of the code has the baton. -/
theorem eq_thread (h : Held holder events s) {i : Option θ} {pc : Pc μ}
    (here : s.threads i = pc) (holds : pc.holds = true) : holder = .thread i :=
  (h.threads i).mp (here ▸ holds)

/-- Thread `i` moves on and the baton is where its new place says. -/
theorem threads_goto (h : Held holder events s) {i : Option θ} {pc : Pc μ}
    {holder' : Holder θ} (own : pc.holds = true ↔ holder' = .thread i)
    (others : ∀ j, j ≠ i → (holder = .thread j ↔ holder' = .thread j)) (j : Option θ) :
    ((s.goto i pc).threads j).holds = true ↔ holder' = .thread j := by
  by_cases same : j = i
  · subst same
    simpa [State.goto] using own
  · have kept : (s.goto i pc).threads j = s.threads j := Function.update_of_ne same ..
    rw [kept]
    exact (h.threads j).trans (others j same)

omit [DecidableEq θ] in
theorem front_eq (h : Held holder events s) {i : Option θ} {pc : Pc μ} (here : s.threads i = pc)
    (holds : pc.holds = true) : holder.front s.threads = pc.front := by
  rw [h.eq_thread here holds, Holder.front, here]

theorem front_goto (s : State θ μ) (i : Option θ) (pc : Pc μ) :
    (Holder.thread i).front (s.goto i pc).threads = pc.front :=
  congrArg Pc.front (Function.update_self ..)

omit [DecidableEq θ] in
theorem front_aside (h : Held holder events s) (aside : Aside s t) :
    holder.front t.threads = holder.front s.threads := by
  cases holder with
  | nobody | network => rfl
  | thread i =>
      obtain same | ⟨before, -⟩ := aside.threads i
      · simp only [Holder.front, same]
      · exact absurd (before.symm.trans ((h.threads i).mpr rfl)) Bool.false_ne_true

omit [DecidableEq θ] in
/-- A step that has nothing to do with the baton. -/
theorem aside (h : Held holder events s) (aside : Aside s t)
    (quiet : queued [e] = [] ∧ written [e] = []) : Held holder (events ++ [e]) t := by
  refine ⟨aside.busy ▸ h.busy, aside.writes ▸ h.writes, ?_, ?_⟩
  · intro i
    obtain same | ⟨before, after⟩ := aside.threads i
    · exact same ▸ h.threads i
    · have none : holder ≠ .thread i := fun has =>
        Bool.false_ne_true (before.symm.trans ((h.threads i).mpr has))
      simp [after, none]
  · rw [h.front_aside aside, aside.queue]
    exact h.ledger.silent quiet

/-- What `send`, `do_write` and `on_write` do to the baton. -/
theorem send_step (h : Held holder events s) (taken : SendStep s e t) :
    ∃ holder', Held holder' (events ++ [e]) t := by
  cases taken with
  | unready idle _ data =>
      exact ⟨holder, h.busy, h.writes, h.threads, h.ledger.silent ⟨rfl, rfl⟩⟩
  | testReady idle _ data => exact ⟨holder, h.aside (goto_aside idle rfl rfl) ⟨rfl, rfl⟩⟩
  | stopped here _ | testStop here _ =>
      exact ⟨holder, h.aside (goto_aside here rfl rfl) ⟨rfl, rfl⟩⟩
  | @queueBusy i data here busy =>
      have moved : Aside s (s.goto (some i) .idle) := goto_aside here rfl rfl
      have left := h.aside (e := .silent) moved ⟨rfl, rfl⟩
      refine ⟨holder, left.busy, left.writes, left.threads, ?_⟩
      have front := h.front_aside moved
      exact front ▸ h.ledger.push data
  | @queueFree i data here free =>
      have nobody : holder = .nobody := by
        by_contra held
        exact Bool.false_ne_true (free.symm.trans (h.busy.mpr held))
      subst nobody
      refine ⟨.thread (some i), by simp, h.writes, ?_, ?_⟩
      · exact h.threads_goto (by simp [Pc.holds]) fun j other => by simpa using Ne.symm other
      · exact (front_goto s (some i) .doWrite).symm ▸ h.ledger.push data
  | @doWriteNone i here nothing =>
      have front := h.front_eq here rfl
      obtain rfl := h.eq_thread here rfl
      refine ⟨.nobody, by simp, h.writes, ?_, ?_⟩
      · exact h.threads_goto (by simp [Pc.holds]) fun j other => by simpa using Ne.symm other
      · exact (front ▸ h.ledger).silent ⟨rfl, rfl⟩
  | @doWriteFront i front rest here queue ready =>
      have whole := h.ledger
      rw [h.front_eq here rfl, queue] at whole
      obtain rfl := h.eq_thread here rfl
      refine ⟨.thread i, h.busy, h.writes, ?_, ?_⟩
      · exact h.threads_goto (by simp [Pc.holds]) fun j other => Iff.rfl
      · exact (front_goto s i (.asyncWrite front)).symm ▸ whole.take.silent ⟨rfl, rfl⟩
  | @asyncWrite i data here =>
      have front := h.front_eq here rfl
      obtain rfl := h.eq_thread here rfl
      refine ⟨.network, by simpa [State.goto] using h.busy, congrArg Nat.succ h.writes, ?_, ?_⟩
      · exact h.threads_goto (by simp [Pc.holds]) fun j other => by simpa using Ne.symm other
      · exact (front ▸ h.ledger).write s.session
  | @onWrite n idle started ec =>
      have network : holder = .network := by
        have outstanding := h.writes
        cases holder with
        | network => rfl
        | nobody | thread i => exact absurd (started.symm.trans outstanding) n.succ_ne_zero
      subst network
      have last : n = 0 := Nat.succ.inj (started.symm.trans h.writes)
      refine ⟨.thread none, by simpa [State.goto] using h.busy, last, ?_, ?_⟩
      · exact h.threads_goto (by simp [Pc.holds]) fun j other => by simpa using Ne.symm other
      · exact (front_goto s none (.writePop ec)).symm ▸ h.ledger.silent ⟨rfl, rfl⟩
  | @writePop ec here =>
      have front := h.front_eq here rfl
      have popped := (front ▸ h.ledger).pop
      obtain rfl := h.eq_thread here rfl
      refine ⟨.thread none, h.busy, h.writes, ?_, ?_⟩
      · exact h.threads_goto (by cases ec <;> simp [Pc.holds]) fun j other => Iff.rfl
      · refine (front_goto s none _).symm ▸ ?_
        cases ec <;> exact popped.silent ⟨rfl, rfl⟩
  | writeRelease here =>
      have front := h.front_eq here rfl
      obtain rfl := h.eq_thread here rfl
      refine ⟨.nobody, by simp, h.writes, ?_, ?_⟩
      · exact h.threads_goto (by simp [Pc.holds]) fun j other => by simpa using Ne.symm other
      · exact (front ▸ h.ledger).silent ⟨rfl, rfl⟩

theorem step (h : Held holder events s) (taken : Step s e t) :
    ∃ holder', Held holder' (events ++ [e]) t := by
  cases taken with
  | send taken => exact h.send_step taken
  | link taken => exact ⟨holder, h.aside taken.aside taken.events⟩

end Held

variable {events : List (Event μ)}

/-- In every run somebody or nobody has the baton. -/
theorem held_run (run : Run Step State.connecting events s) : ∃ holder, Held holder events s :=
  run.invariant (I := fun events s => ∃ holder, Held holder events s)
    ⟨.nobody, held_connecting⟩ fun ⟨_, held⟩ taken => held.step taken

/-! ## One string -/

/-- A run of the senders is a run of the client. -/
theorem run_send (run : Run SendStep s events t) : Run Step s events t := by
  simpa using run.map (f := id) .send

variable {i : θ}

/-- `send` gets past its tests. -/
theorem run_tested (idle : s.threads (some i) = .idle) (ready : s.ready = true)
    (stop : s.stop = false) (data : μ) :
    Run SendStep s [.sending data, .silent] (s.goto (some i) (.sendQueue data)) := by
  have tested := (Run.single (SendStep.testReady idle ready data)).snoc
    (.testStop (State.goto_self ..) stop)
  rwa [State.goto_goto] at tested

omit [DecidableEq θ] in
/-- One more write is outstanding and its emptied place is the queue. -/
def State.handed (s : State θ μ) : State θ μ :=
  { s with mSendQueue := [none], mWriteInProgress := true, writes := s.writes + 1 }

/-- `send` hands a string over to `async_write`. -/
theorem run_handed (idle : s.threads (some i) = .idle) (ready : s.ready = true)
    (stop : s.stop = false) (free : s.mWriteInProgress = false) (queue : s.mSendQueue = [])
    (data : μ) :
    Run SendStep s [.sending data, .silent, .queued data, .silent, .wrote s.session (some data)]
      s.handed := by
  have queued := (run_tested idle ready stop data).snoc (.queueFree (State.goto_self ..) free)
  have front := queued.snoc (.doWriteFront (i := some i) (State.goto_self ..)
    (by simp only [State.goto, queue]; rfl) (by simpa [State.goto] using ready))
  have handed := front.snoc (.asyncWrite (State.goto_self ..))
  simpa [State.handed, State.goto, State.update_threads_eq idle] using handed

/-- `send` writes a string and the network reports it written. All is as before. -/
theorem run_sent (idle : ∀ i, s.threads i = .idle) (ready : s.ready = true)
    (stop : s.stop = false) (free : s.mWriteInProgress = false) (queue : s.mSendQueue = [])
    (i : θ) (data : μ) :
    Run SendStep s [.sending data, .silent, .queued data, .silent, .wrote s.session (some data),
      .silent, .silent, .silent] s := by
  have handed := run_handed (idle (some i)) ready stop free queue data
  have completed := handed.snoc (.onWrite (s := s.handed) (idle none) rfl false)
  have popped := completed.snoc (@SendStep.writePop _ _ _ _ false (by simp [State.goto]))
  have released := popped.snoc (.doWriteNone (i := none) (by simp [State.goto]) (Or.inl rfl))
  have threads : Function.update s.threads none .idle = s.threads :=
    State.update_threads_eq (idle none)
  simpa [State.goto, State.handed, threads, ← queue, ← free] using released

/-! ## Serial writes -/

/-- In every run at most one write is outstanding, and the strings handed to `async_write`
are strings that `send` queued, in this order, each at most as often as it was queued. -/
theorem writes_serial (run : Run Step (State.connecting : State θ μ) events s) :
    s.writes ≤ 1 ∧ none ∉ written events ∧
      (written events).Sublist ((queued events).map some) := by
  obtain ⟨holder, held⟩ := held_run run
  refine ⟨?_, ?_, held.ledger.isPrefix.sublist⟩
  · rw [held.writes]
    cases holder <;> simp [Holder.writes]
  · intro emptied
    simpa using held.ledger.isPrefix.subset emptied

/-- Two threads send on a link that is up; the first string is being written. -/
theorem writes_serial_two : ∃ (events : List (Event Nat)) (s : State Bool Nat),
    Run Step State.connecting events s ∧ queued events = [1, 2] ∧ written events = [some 1] ∧
      (s.writes ≤ 1 ∧ none ∉ written events ∧
        (written events).Sublist ((queued events).map some)) := by
  obtain ⟨t, linked, up⟩ := run_linked (s := (State.connecting : State Bool Nat)) rfl rfl
  have idle : ∀ i, t.threads i = .idle := congrFun up.threads
  have first := run_handed (idle (some false)) up.ready up.stop up.busy up.queue 1
  have tested := run_tested (s := t.handed) (i := true) (idle _) up.ready up.stop 2
  have second := (first.trans tested).snoc (.queueBusy (State.goto_self ..) rfl)
  have run := (run_link linked).trans (run_send second)
  exact ⟨_, _, run, rfl, rfl, writes_serial run⟩

end RazorCrypto.Ws
