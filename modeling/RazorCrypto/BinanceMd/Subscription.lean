import RazorCrypto.Ws.Session
import RazorCrypto.Ws.Unwritten

/-!
# The subscriptions of a market-data connection

`create_single_ws_conn` starts a client and polls `is_ready`. When it sees the client ready,
`create_spot_connections` or `create_ubase_connections` sends the two subscriptions through
it, once. `on_conn` and `on_reconn` send nothing. So the subscriptions reach the session that
is there when they are sent, and no later one.
-/

namespace RazorCrypto.BinanceMd

open Transition Ws

/-! ## The messages -/

/-- One turn of the loop in `build_subscribe_msg`, with the index of the symbol. -/
def appendParam (suffix params : String) (entry : String × Nat) : String :=
  (if 0 < entry.2 then params ++ "," else params) ++ ("\"" ++ entry.1 ++ suffix ++ "\"")

/-- `build_subscribe_msg`. -/
def buildSubscribeMsg (symbols : List String) (suffix : String) (connId : Int) : String :=
  "\x7b\"method\":\"SUBSCRIBE\",\"id\":" ++ toString connId ++ ",\"params\":" ++
    (symbols.zipIdx.foldl (appendParam suffix) "[" ++ "]") ++ "\x7d"

/-- The strings that `subscribe_symbols` sends, in order. -/
def subscribeSymbols (symbols : List String) (connId : Int) : List String :=
  if symbols.isEmpty then []
  else [buildSubscribeMsg symbols "@aggTrade" connId,
    buildSubscribeMsg symbols "@bookTicker" connId]

example : buildSubscribeMsg ["btcusdt", "ethusdt"] "@aggTrade" 1 =
    "\x7b\"method\":\"SUBSCRIBE\",\"id\":1,\"params\":" ++
      "[\"btcusdt@aggTrade\",\"ethusdt@aggTrade\"]\x7d" := by
  decide +kernel

/-- The loop only appends. -/
theorem foldl_appendParam (suffix : String) (entries : List (String × Nat)) (params : String) :
    ∃ more, entries.foldl (appendParam suffix) params = params ++ more := by
  induction entries generalizing params with
  | nil => exact ⟨"", by simp⟩
  | cons entry entries ih =>
      obtain ⟨more, appended⟩ := ih (appendParam suffix params entry)
      rw [List.foldl_cons, appended, appendParam]
      split
      · rw [String.append_assoc, String.append_assoc]
        exact ⟨_, rfl⟩
      · rw [String.append_assoc]
        exact ⟨_, rfl⟩

/-- The two subscriptions differ behind the first symbol. -/
theorem buildSubscribeMsg_ne {symbols : List String} (configured : symbols ≠ []) (connId : Int) :
    buildSubscribeMsg symbols "@aggTrade" connId ≠
      buildSubscribeMsg symbols "@bookTicker" connId := by
  obtain ⟨first, rest, rfl⟩ := List.exists_cons_of_ne_nil configured
  have shape : ∀ suffix, ∃ more, (first :: rest).zipIdx.foldl (appendParam suffix) "[" =
      "[" ++ ("\"" ++ first ++ suffix ++ "\"") ++ more := by
    intro suffix
    obtain ⟨more, appended⟩ :=
      foldl_appendParam suffix (rest.zipIdx 1) (appendParam suffix "[" (first, 0))
    refine ⟨more, ?_⟩
    simpa [List.zipIdx_cons, appendParam] using appended
  obtain ⟨more, agg⟩ := shape "@aggTrade"
  obtain ⟨more', book⟩ := shape "@bookTicker"
  intro same
  have letters := congrArg String.toList same
  unfold buildSubscribeMsg at letters
  simp only [agg, book, String.toList_append, List.append_assoc,
    List.append_cancel_left_eq] at letters
  simp at letters

/-! ## The creator of a connection -/

/-- The thread that creates the connection: polling `is_ready` for the `tryNum`-th time,
sending the rest of the subscriptions, or done with or without a connection. -/
inductive Creator
  | polling (tryNum : Nat)
  | subscribing (rest : List String)
  | subscribed
  | failed

/-- The client of a connection and the thread that creates it. -/
structure Connection where
  client : State Unit String
  creator : Creator

/-- `create_single_ws_conn` after `connect` and `start_work`. -/
def Connection.started : Connection := ⟨.connecting, .polling 0⟩

/-- One step of `create_single_ws_conn`, of `subscribe_symbols`, of `send` or of the client. -/
inductive Step (symbols : List String) (connId : Int) :
    Connection → Event String → Connection → Prop
  | link {s e client} (taken : LinkStep s.client e client) (running : e ≠ .closed) :
      Step symbols connId s e { s with client := client }
  | write {s e client} (taken : SendStep s.client e client)
      (internal : ∀ data, e ≠ .sending data) :
      Step symbols connId s e { s with client := client }
  | pollReady {s tryNum} (polling : s.creator = .polling tryNum) (more : tryNum < 30)
      (ready : s.client.ready = true) :
      Step symbols connId s .silent
        { s with creator := .subscribing (subscribeSymbols symbols connId) }
  | pollAgain {s tryNum} (polling : s.creator = .polling tryNum) (more : tryNum < 30)
      (unready : s.client.ready = false) :
      Step symbols connId s .silent { s with creator := .polling (tryNum + 1) }
  | pollFailed {s tryNum} (polling : s.creator = .polling tryNum) (last : 30 ≤ tryNum) :
      Step symbols connId s .silent { s with creator := .failed }
  | send {s data rest client} (subscribing : s.creator = .subscribing (data :: rest))
      (taken : SendStep s.client (.sending data) client) :
      Step symbols connId s (.sending data) ⟨client, .subscribing rest⟩
  | finish {s} (subscribing : s.creator = .subscribing [])
      (idle : s.client.threads (some ()) = .idle) :
      Step symbols connId s .silent { s with creator := .subscribed }

/-- The connection is up and at rest: nobody is inside the client, and no write is
outstanding. -/
structure Up (s : Connection) : Prop where
  ready : s.client.ready = true
  idle : ∀ i, s.client.threads i = .idle
  writes : s.client.writes = 0

/-! ## What holds in every run -/

/-- The subscriptions that the creator has still to send. -/
def Creator.rest (messages : List String) : Creator → List String
  | .polling _ => messages
  | .subscribing rest => rest
  | _ => []

/-- The subscriptions that were queued, the one that `send` is about to queue and those to be
sent. -/
def accounts (messages : List String) (events : List (Event String)) (s : Connection) :
    List String :=
  queued events ++ ((s.client.threads (some ())).sending ++ s.creator.rest messages)

variable {symbols : List String} {connId : Int} {messages : List String}
  {s t : Connection} {e : Event String} {events : List (Event String)}

/-- What holds after any run that came to `s` with `events`. -/
structure Sound (messages : List String) (events : List (Event String)) (s : Connection) :
    Prop where
  held : ∃ holder, Held holder events s.client
  opened : Opened s.client
  session : OneSession events s.client
  begun : Begun events s.client
  order : (accounts messages events s).Sublist messages

theorem sound_started : Sound messages [] Connection.started := by
  refine ⟨⟨.nobody, held_connecting⟩, opened_connecting, ?_, ?_, ?_⟩
  · simp [OneSession, Connection.started, State.connecting]
  · simp [Begun, Connection.started, State.connecting, Pc.holds]
  · simp [accounts, Connection.started, State.connecting, Pc.sending, Creator.rest, queued]

/-- The creator takes a step of its own. -/
theorem Sound.creator (h : Sound messages events s) {creator : Creator}
    (rest : (creator.rest messages).Sublist (s.creator.rest messages)) :
    Sound messages (events ++ [.silent]) { s with creator := creator } := by
  obtain ⟨holder, held⟩ := h.held
  refine ⟨⟨holder, held.busy, held.writes, held.threads, held.ledger.silent ⟨rfl, rfl⟩⟩,
    h.opened, ?_, ?_, ?_⟩
  · simpa [OneSession, handed_snoc] using h.session
  · exact h.begun.mono rfl id
  · refine List.Sublist.trans ?_ h.order
    simpa [accounts, queued] using rest

/-- A step of the client, and what it does to the accounts. -/
theorem Sound.client (h : Sound messages events s) {client : State Unit String}
    {creator : Creator} (taken : Ws.Step s.client e client) (running : e ≠ .closed)
    (accounted :
      (queued [e] ++ ((client.threads (some ())).sending ++ creator.rest messages)).Sublist
        ((s.client.threads (some ())).sending ++ s.creator.rest messages)) :
    Sound messages (events ++ [e]) ⟨client, creator⟩ := by
  obtain ⟨holder, held⟩ := h.held
  refine ⟨held.step taken, h.opened.step taken running, h.session.step h.opened taken,
    h.begun.step taken, ?_⟩
  refine List.Sublist.trans ?_ h.order
  rw [accounts, accounts, queued_append, List.append_assoc]
  exact List.Sublist.append_left accounted _

theorem Sound.step (h : Sound messages events s) (all : messages = subscribeSymbols symbols connId)
    (taken : Step symbols connId s e t) : Sound messages (events ++ [e]) t := by
  cases taken with
  | link taken running =>
      refine h.client (.link taken) running ?_
      rw [taken.events.1, taken.threads_some ()]
      exact List.Sublist.refl _
  | write taken internal =>
      refine h.client (.send taken) (by cases taken <;> simp) ?_
      obtain kept | ⟨-, none, nothing⟩ := taken.accounts internal () fun _ => rfl
      · rw [← List.append_assoc, kept]
      · rw [none, nothing]
        exact List.sublist_append_right ..
  | pollReady polling more ready =>
      refine h.creator ?_
      rw [polling, all]
      exact List.Sublist.refl _
  | pollAgain polling =>
      refine h.creator ?_
      rw [polling]
      exact List.Sublist.refl _
  | pollFailed | finish => exact h.creator (List.nil_sublist _)
  | @send data rest client subscribing taken =>
      refine h.client (.send taken) (by simp) ?_
      rw [subscribing]
      cases taken with
      | unready => simp [queued, Creator.rest]
      | testReady idle => simp [queued, Creator.rest, State.goto, idle, Pc.sending]

theorem Sound.run (h : Sound (subscribeSymbols symbols connId) events s)
    {more : List (Event String)} (run : Run (Step symbols connId) s more t) :
    Sound (subscribeSymbols symbols connId) (events ++ more) t := by
  refine run.invariant
    (I := fun more t => Sound (subscribeSymbols symbols connId) (events ++ more) t) ?_ ?_
  · simpa using h
  · intro more t e u sound taken
    rw [← List.append_assoc]
    exact sound.step rfl taken

/-! ## One session -/

/-- No subscription was dropped, and all that was written was handed to the current session. -/
structure Fresh (messages : List String) (events : List (Event String)) (s : Connection) :
    Prop where
  covered : Covered s.client
  all : accounts messages events s = messages
  handed : (handed events).map Prod.snd = written events

/-- A step of the client within the session, and what it does to the accounts. -/
theorem Fresh.client (h : Fresh messages events s) (sound : Sound messages events s)
    (stop : s.client.stop = false) {client : State Unit String} {creator : Creator}
    (taken : Ws.Step s.client e client) (other : e ≠ .onReady)
    (accounted : queued [e] ++ ((client.threads (some ())).sending ++ creator.rest messages) =
      (s.client.threads (some ())).sending ++ s.creator.rest messages) :
    Fresh messages (events ++ [e]) ⟨client, creator⟩ := by
  obtain ⟨holder, held⟩ := sound.held
  refine ⟨?_, ?_, ?_⟩
  · cases taken with
    | send taken => exact taken.covered held h.covered
    | link taken =>
        refine taken.covered h.covered (fun ready => absurd ready other) ?_
        rintro rfl
        cases taken with
        | writeStopped _ stopped => exact absurd (stop.symm.trans stopped) Bool.false_ne_true
  · rw [accounts, queued_append, List.append_assoc, accounted]
    exact h.all
  · rw [handed_snoc, written_append]
    cases e with
    | onReady => exact absurd rfl other
    | wrote session data => simp [h.handed, written]
    | _ => simpa [written] using h.handed

/-- A step of the creator. -/
theorem Fresh.creator (h : Fresh messages events s) {creator : Creator}
    (rest : creator.rest messages = s.creator.rest messages) :
    Fresh messages (events ++ [.silent]) { s with creator := creator } := by
  refine ⟨h.covered, ?_, ?_⟩
  · refine Eq.trans ?_ h.all
    simp [accounts, queued, rest]
  · simpa [handed_snoc, written] using h.handed

/-- Within a session, while the creator has the client. -/
theorem Fresh.step (h : Fresh messages events s) (sound : Sound messages events s)
    (polled : ∀ tryNum, s.creator ≠ .polling tryNum) (ready : s.client.ready = true)
    (taken : Step symbols connId s e t) (other : e ≠ .onReady) :
    Fresh messages (events ++ [e]) t := by
  have stop := sound.opened.running ready
  cases taken with
  | link taken running =>
      refine h.client sound stop (.link taken) other ?_
      rw [taken.events.1, taken.threads_some ()]
      rfl
  | write taken internal =>
      refine h.client sound stop (.send taken) other ?_
      obtain kept | ⟨stopped, -⟩ := taken.accounts internal () fun _ => rfl
      · rw [← List.append_assoc, kept]
      · exact absurd (stop.symm.trans stopped) Bool.false_ne_true
  | pollReady polling | pollAgain polling | pollFailed polling =>
      exact absurd polling (polled _)
  | @send data rest client subscribing taken =>
      refine h.client sound stop (.send taken) other ?_
      rw [subscribing]
      cases taken with
      | unready _ unready => exact absurd (unready.symm.trans ready) Bool.false_ne_true
      | testReady idle => simp [queued, Creator.rest, State.goto, idle, Pc.sending]
  | finish subscribing =>
      refine h.creator ?_
      rw [subscribing]
      rfl

/-- Where nothing is dropped and nothing written yet, and somebody attends to the queue. -/
theorem Fresh.of_unwritten (covered : Covered s.client)
    (all : accounts messages events s = messages) (unwritten : written events = []) :
    Fresh messages events s := by
  have unhanded : Ws.handed events = [] := by
    refine List.eq_nil_iff_forall_not_mem.mpr ?_
    intro entry member
    simpa [unwritten] using mem_written_of_handed member
  refine ⟨covered, all, ?_⟩
  rw [unhanded, unwritten]
  rfl

/-- Before the first subscription is sent, nothing was queued or written yet. -/
theorem Sound.fresh (h : Sound messages events s) (rest : s.creator.rest messages = messages) :
    Fresh messages events s := by
  have lengths := h.order.length_le
  simp only [accounts, rest, List.length_append] at lengths
  have unqueued : queued events = [] := List.eq_nil_of_length_eq_zero (by omega)
  have unsent : (s.client.threads (some ())).sending = [] :=
    List.eq_nil_of_length_eq_zero (by omega)
  obtain ⟨holder, held⟩ := h.held
  have unwritten : written events = [] := by
    simpa [unqueued] using held.ledger.isPrefix
  refine .of_unwritten (Or.inl ?_) (by simp [accounts, unqueued, unsent, rest]) unwritten
  by_cases nobody : holder = .nobody
  · subst nobody
    exact Or.inl (held.ledger.queue_eq_nil unqueued)
  · exact Or.inr (held.busy.mpr nobody)

/-- The creator does not poll again. -/
theorem Step.polled (taken : Step symbols connId s e t)
    (polled : ∀ tryNum, s.creator ≠ .polling tryNum) (tryNum : Nat) :
    t.creator ≠ .polling tryNum := by
  cases taken with
  | link | write => exact polled tryNum
  | pollAgain polling => exact absurd polling (polled _)
  | _ => simp

theorem Step.ready_of (taken : Step symbols connId s e t) (other : e ≠ .onReady)
    (ready : t.client.ready = true) : s.client.ready = true := by
  cases taken with
  | link taken => exact Ws.Step.ready_of (.link taken) other ready
  | write taken => exact Ws.Step.ready_of (.send taken) other ready
  | send _ taken => exact Ws.Step.ready_of (.send taken) other ready
  | _ => exact ready

/-- Within a session, through any run without `on_ready`. -/
theorem Fresh.run (h : Fresh (subscribeSymbols symbols connId) events s)
    (sound : Sound (subscribeSymbols symbols connId) events s)
    (polled : ∀ tryNum, s.creator ≠ .polling tryNum) {more : List (Event String)}
    (run : Run (Step symbols connId) s more t) (same : .onReady ∉ more)
    (ready : t.client.ready = true) :
    Fresh (subscribeSymbols symbols connId) (events ++ more) t := by
  have invariant := run.invariant
    (I := fun more t => Sound (subscribeSymbols symbols connId) (events ++ more) t ∧
      (∀ tryNum, t.creator ≠ .polling tryNum) ∧ (.onReady ∉ more → t.client.ready = true →
        Fresh (subscribeSymbols symbols connId) (events ++ more) t))
    ⟨by simpa using sound, polled, fun _ _ => by simpa using h⟩ ?_
  · exact invariant.2.2 same ready
  · rintro more t e u ⟨sound, polled, fresh⟩ taken
    rw [← List.append_assoc]
    refine ⟨sound.step rfl taken, taken.polled polled, ?_⟩
    intro same ready
    have other : e ≠ .onReady := by
      rintro rfl
      simp at same
    have earlier := taken.ready_of other ready
    have before : .onReady ∉ more := fun member => same (List.mem_append_left _ member)
    exact (fresh before earlier).step sound polled earlier taken other

/-! ## The subscription of a session -/

/-- The subscriptions were handed to the current session. -/
def Subscribed (symbols : List String) (connId : Int) (events : List (Event String))
    (s : Connection) : Prop :=
  ∀ message ∈ subscribeSymbols symbols connId, (s.client.session, some message) ∈ handed events

/-- As long as there was no further `on_ready`, both subscriptions were handed over. -/
theorem Fresh.subscribed (h : Fresh (subscribeSymbols symbols connId) events s)
    (sound : Sound (subscribeSymbols symbols connId) events s) (sent : s.creator = .subscribed)
    (up : Up s) : Subscribed symbols connId events s := by
  obtain ⟨holder, held⟩ := sound.held
  have outside : ∀ i, (s.client.threads i).inside = false :=
    fun i => congrArg Pc.inside (up.idle i)
  have empty : s.client.mSendQueue = [] := by
    by_contra queue
    exact absurd up.writes (h.covered.outstanding held up.ready outside queue).ne'
  have all : queued events = subscribeSymbols symbols connId := by
    simpa [accounts, up.idle, sent, Pc.sending, Creator.rest] using h.all
  have everything : written events = (subscribeSymbols symbols connId).map some := by
    rw [← all]
    exact (empty ▸ held.ledger).all_written
  intro message member
  have delivered : some message ∈ (Ws.handed events).map Prod.snd := by
    rw [h.handed, everything]
    exact List.mem_map_of_mem member
  obtain ⟨⟨session, data⟩, entry, rfl⟩ := List.mem_map.mp delivered
  have current := sound.session up.ready (by simp [up.idle, Pc.replaced]) _ entry
  exact current ▸ entry

/-! ## The first subscription -/

/-- Where the creator is among the subscriptions: those that it has still to send come behind the
one that it sends. It queued this one last if it writes. -/
structure Placed (messages : List String) (events : List (Event String)) (s : Connection) :
    Prop where
  rest : s.creator.rest messages <:+ messages
  sending : ∀ data, (s.client.threads (some ())).sending = [data] →
    data :: s.creator.rest messages <:+ messages
  writing : (s.client.threads (some ())).holds = true → ∃ earlier data,
    queued events = earlier ++ [data] ∧ data :: s.creator.rest messages <:+ messages

namespace Placed

theorem started : Placed messages [] Connection.started := by
  refine ⟨List.suffix_refl messages, ?_, ?_⟩
  · simp [Connection.started, State.connecting, Pc.sending]
  · simp [Connection.started, State.connecting, Pc.holds]

/-- A step that leaves the thread of the creator where it is. -/
theorem kept (h : Placed messages events s) {client : State Unit String}
    (thread : client.threads (some ()) = s.client.threads (some ())) (quiet : queued [e] = []) :
    Placed messages (events ++ [e]) { s with client := client } := by
  refine ⟨h.rest, ?_, ?_⟩
  · rw [thread]
    exact h.sending
  · rw [thread, queued_append, quiet, List.append_nil]
    exact h.writing

/-- A step after which the creator is outside `send`. -/
theorem idle (h : Placed messages events s) {client : State Unit String}
    (thread : client.threads (some ()) = .idle) :
    Placed messages (events ++ [e]) { s with client := client } := by
  refine ⟨h.rest, ?_, ?_⟩
  · simp [thread, Pc.sending]
  · simp [thread, Pc.holds]

/-- A step inside `send`, or of `on_write`. -/
theorem send_step (h : Placed messages events s) {client : State Unit String}
    (taken : SendStep s.client e client) (internal : ∀ data, e ≠ .sending data) :
    Placed messages (events ++ [e]) { s with client := client } := by
  cases taken with
  | unready | testReady => exact absurd rfl (internal _)
  | stopped | queueBusy => exact h.idle (by simp [State.goto])
  | @testStop i data here stop =>
      refine ⟨h.rest, fun data' same => ?_, by simp [State.goto, Pc.holds]⟩
      obtain rfl : data = data' := by simpa [State.goto, Pc.sending] using same
      exact h.sending data (congrArg Pc.sending here)
  | @queueFree i data here free =>
      refine ⟨h.rest, by simp [State.goto, Pc.sending], fun _ => ?_⟩
      exact ⟨queued events, data, queued_append .., h.sending data (congrArg Pc.sending here)⟩
  | @doWriteNone i here =>
      cases i with
      | none => exact h.kept (by simp [State.goto]) rfl
      | some i => exact h.idle (by simp [State.goto])
  | @doWriteFront i front rest here =>
      cases i with
      | none => exact h.kept (by simp [State.goto]) rfl
      | some i =>
          refine ⟨h.rest, by simp [State.goto, Pc.sending], fun _ => ?_⟩
          have quiet : queued (events ++ [.silent]) = queued events := by simp [queued]
          rw [quiet]
          exact h.writing (congrArg Pc.holds here)
  | @asyncWrite i data here =>
      cases i with
      | none => exact h.kept (by simp [State.goto]) rfl
      | some i => exact h.idle (by simp [State.goto])
  | onWrite | writePop | writeRelease => exact h.kept (by simp [State.goto]) rfl

/-- While the creator polls, it is outside `send`. -/
theorem polling (h : Placed messages events s) (rest : s.creator.rest messages = messages) :
    (s.client.threads (some ())).sending = [] ∧ (s.client.threads (some ())).holds = false := by
  have behind : ∀ data : String, ¬data :: s.creator.rest messages <:+ messages := by
    intro data suffix
    have lengths := suffix.length_le
    rw [rest, List.length_cons] at lengths
    omega
  constructor
  · cases place : s.client.threads (some ()) with
    | sendTestStop data | sendQueue data =>
        exact absurd (h.sending data (congrArg Pc.sending place)) (behind data)
    | _ => rfl
  · by_contra holds
    obtain ⟨_, data, -, suffix⟩ := h.writing (by simpa using holds)
    exact behind data suffix

theorem step (h : Placed messages events s) (all : messages = subscribeSymbols symbols connId)
    (taken : Step symbols connId s e t) : Placed messages (events ++ [e]) t := by
  cases taken with
  | link taken => exact h.kept (taken.threads_some ()) taken.events.1
  | write taken internal => exact h.send_step taken internal
  | pollReady polling | pollAgain polling | pollFailed polling =>
      obtain ⟨unsent, free⟩ := h.polling (by rw [polling]; rfl)
      refine ⟨by simp [Creator.rest, all], ?_, ?_⟩
      · simp [unsent]
      · simp [free]
  | @send data rest client subscribing taken =>
      have place := h.rest
      rw [subscribing] at place
      refine ⟨(List.suffix_cons data rest).trans place, ?_, ?_⟩
      · cases taken with
        | unready idle => simp [idle, Pc.sending]
        | testReady idle =>
            intro data' same
            obtain rfl : data = data' := by simpa [State.goto, Pc.sending] using same
            exact place
      · cases taken with
        | unready idle => simp [idle, Pc.holds]
        | testReady idle => simp [State.goto, Pc.holds]
  | finish subscribing idle =>
      refine ⟨List.nil_suffix, ?_, ?_⟩
      · simp [idle, Pc.sending]
      · simp [idle, Pc.holds]

theorem run {more : List (Event String)} (run : Run (Step symbols connId) .started more t) :
    Placed (subscribeSymbols symbols connId) more t :=
  run.invariant (I := fun more t => Placed (subscribeSymbols symbols connId) more t) started
    fun placed taken => placed.step rfl taken

end Placed

/-- The first subscription is written before the other one. -/
theorem Sound.unwritten {first second : String} (h : Sound [first, second] events s)
    (ne : first ≠ second) {session : Nat} {earlier : List (Event String)}
    (whole : events = earlier ++ [.wrote session (some first)]) : written earlier = [] := by
  obtain ⟨holder, held⟩ := h.held
  have order : (written events).Sublist ([first, second].map some) :=
    held.ledger.isPrefix.sublist.trans
      (((List.sublist_append_left _ _).trans h.order).map some)
  rw [whole, written_append] at order
  cases before : written earlier with
  | nil => rfl
  | cons x xs =>
      rw [before] at order
      have twice : [x, some first].Sublist ([first, second].map some) :=
        (((List.nil_sublist xs).append (List.Sublist.refl [some first])).cons_cons x).trans order
      have same := twice.eq_of_length rfl
      simp [ne] at same

/-- When the creator writes the first subscription, it has dropped none. -/
theorem Placed.all {first second : String} (h : Placed [first, second] events s)
    (sound : Sound [first, second] events s) (ne : first ≠ second)
    (writing : (s.client.threads (some ())).holds = true) (begun : first ∈ queued events) :
    accounts [first, second] events s = [first, second] := by
  refine sound.order.eq_of_length_le ?_
  obtain ⟨earlier, data, last, place⟩ := h.writing writing
  have several := List.length_pos_of_mem begun
  simp only [List.suffix_cons_iff, List.suffix_nil, List.cons_ne_nil, or_false] at place
  rw [accounts, List.length_append, List.length_append]
  obtain whole | rest := place
  · obtain ⟨-, rest⟩ := List.cons.inj whole
    simp only [rest, List.length_cons, List.length_nil]
    omega
  · -- the other subscription is queued as well
    obtain ⟨rfl, -⟩ := List.cons.inj rest
    have more : earlier ≠ [] := by
      rintro rfl
      simp [last, ne] at begun
    have earlier := List.length_pos_iff.mpr more
    simp only [last, List.length_append, List.length_cons, List.length_nil]
    omega

/-- The first subscription is handed over by the creator, in one session with all others. -/
theorem Sound.fresh_of_wrote {first second : String}
    (all : subscribeSymbols symbols connId = [first, second]) (ne : first ≠ second)
    (h : Sound [first, second] events s) (placed : Placed [first, second] events s) {session : Nat}
    (taken : Step symbols connId s (.wrote session (some first)) t) :
    Fresh [first, second] events s ∧ ∀ tryNum, s.creator ≠ .polling tryNum := by
  have later := h.step all.symm taken
  have unwritten := later.unwritten ne rfl
  obtain ⟨holder, held⟩ := h.held
  have begun : first ∈ queued events := by
    obtain ⟨_, held⟩ := later.held
    have inside := held.ledger.isPrefix.subset (a := some first) (by simp [written])
    simpa [queued_append, queued] using inside
  cases taken with
  | link taken => cases taken
  | write taken =>
      cases taken with
      | @asyncWrite i _ here =>
          have holds : (s.client.threads i).holds = true := congrArg Pc.holds here
          cases i with
          | none => exact absurd unwritten (h.begun (Or.inr holds))
          | some i =>
              have busy := held.busy.mpr (by rw [held.eq_thread here rfl]; simp)
              refine ⟨.of_unwritten (Or.inl (Or.inr busy)) (placed.all h ne holds begun) unwritten,
                fun tryNum polling => ?_⟩
              obtain ⟨-, free⟩ := placed.polling (by rw [polling]; rfl)
              exact Bool.false_ne_true (free.symm.trans holds)

/-- In every state in which both subscriptions were sent and the connection is up: if there was no
`on_ready` since the first was sent, they were handed to the session. Precisely, they were if and
only if there was no `on_ready` since the first was handed to `async_write`. -/
theorem subscribed_iff (configured : symbols ≠ []) {events : List (Event String)} {s : Connection}
    (run : Run (Step symbols connId) .started events s) (sent : s.creator = .subscribed)
    (up : Up s) :
    (∀ before after,
      events = before ++ .sending (buildSubscribeMsg symbols "@aggTrade" connId) :: after →
        .onReady ∉ after → Subscribed symbols connId events s) ∧
    (Subscribed symbols connId events s ↔ ∃ before session after,
      events = before ++
          .wrote session (some (buildSubscribeMsg symbols "@aggTrade" connId)) :: after ∧
        .onReady ∉ after) := by
  have messages : subscribeSymbols symbols connId =
      [buildSubscribeMsg symbols "@aggTrade" connId,
        buildSubscribeMsg symbols "@bookTicker" connId] :=
    if_neg (by simpa using configured)
  have ne := buildSubscribeMsg_ne configured connId
  have sound : Sound (subscribeSymbols symbols connId) events s := sound_started.run run
  -- from a state in which nothing is dropped or written, through a run of one session
  have within {before after : List (Event String)} {p : Connection}
      (fresh : Fresh (subscribeSymbols symbols connId) before p)
      (asked : Sound (subscribeSymbols symbols connId) before p)
      (polled : ∀ tryNum, p.creator ≠ .polling tryNum)
      (later : Run (Step symbols connId) p after s) (whole : events = before ++ after)
      (same : .onReady ∉ after) : Subscribed symbols connId events s := by
    have kept := fresh.run asked polled later same up.ready
    rw [whole]
    exact kept.subscribed (whole ▸ sound) sent up
  refine ⟨?_, ?_, ?_⟩
  · rintro before after rfl same
    obtain ⟨p, earlier, later⟩ := run.split
    obtain ⟨q, taken, -⟩ := later.uncons
    have asked : Sound (subscribeSymbols symbols connId) before p := sound_started.run earlier
    have place := (Placed.run earlier).rest
    cases taken with
    | link taken => cases taken
    | write taken internal => exact absurd rfl (internal _)
    | @send data rest client subscribing taken =>
        rw [subscribing] at place
        have whole : p.creator.rest (subscribeSymbols symbols connId) =
            subscribeSymbols symbols connId := by
          rw [subscribing]
          simp only [messages, Creator.rest, List.suffix_cons_iff, List.suffix_nil,
            List.cons_ne_nil, or_false] at place ⊢
          exact place.resolve_right fun last => ne (List.cons.inj last).1
        exact within (asked.fresh whole) asked (by simp [subscribing]) later rfl (by simp [same])
  · intro subscribed
    have entry := subscribed _ (messages ▸ List.mem_cons_self ..)
    obtain ⟨before, after, whole, same⟩ := exists_of_mem_handed entry
    exact ⟨before, _, after, whole, same⟩
  · rintro ⟨before, session, after, rfl, same⟩
    obtain ⟨p, earlier, later⟩ := run.split
    obtain ⟨q, taken, -⟩ := later.uncons
    have asked : Sound (subscribeSymbols symbols connId) before p := sound_started.run earlier
    have placed : Placed (subscribeSymbols symbols connId) before p := Placed.run earlier
    obtain ⟨fresh, polled⟩ : Fresh (subscribeSymbols symbols connId) before p ∧
        ∀ tryNum, p.creator ≠ .polling tryNum := by
      rw [messages] at asked placed ⊢
      exact asked.fresh_of_wrote messages ne placed taken
    exact within fresh asked polled later rfl (by simp [same])

/-! ## A connection that reconnects -/

/-- A run of the link while the creator waits. -/
theorem run_of_link {c c' : State Unit String} (run : Run LinkStep c events c')
    (running : .closed ∉ events) (creator : Creator) :
    Run (Step symbols connId) ⟨c, creator⟩ events ⟨c', creator⟩ := by
  induction run with
  | refl => exact .refl
  | snoc _ taken ih =>
      have earlier := ih fun member => running (List.mem_append_left _ member)
      refine earlier.snoc (.link taken ?_)
      rintro rfl
      simp at running

/-- A call of `send` from its first step on. -/
theorem run_of_send {c c' : State Unit String} (run : Run SendStep c events c') {data : String}
    {rest : List String} {later : List (Event String)} (call : events = .sending data :: later)
    (internal : ∀ e ∈ later, ∀ data, e ≠ .sending data) :
    Run (Step symbols connId) ⟨c, .subscribing (data :: rest)⟩ events ⟨c', .subscribing rest⟩ := by
  induction run generalizing later with
  | refl => cases call
  | @snoc events t e u run taken ih =>
      cases events with
      | nil =>
          obtain ⟨rfl, rfl⟩ := List.cons.inj call
          obtain rfl := run.eq_of_nil rfl
          exact .single (.send rfl taken)
      | cons first events =>
          obtain ⟨rfl, rfl⟩ := List.cons.inj call
          have inside : ∀ e ∈ events, ∀ data, e ≠ .sending data :=
            fun e member => internal e (List.mem_append_left _ member)
          exact (ih rfl inside).snoc (.write taken (internal e (by simp)))

/-- A connection of one symbol. -/
def one : List String := ["btcusdt"]

/-- On a client that is up the subscriptions are sent and written. -/
theorem run_subscribed {c : State Unit String} (idle : ∀ i, c.threads i = .idle)
    (ready : c.ready = true) (stop : c.stop = false) (free : c.mWriteInProgress = false)
    (queue : c.mSendQueue = []) : ∃ later, Run (Step one 1)
      ⟨c, .subscribing (subscribeSymbols one 1)⟩
      (.sending (buildSubscribeMsg one "@aggTrade" 1) :: later) ⟨c, .subscribed⟩ ∧
        .onReady ∉ later := by
  have sent := run_sent idle ready stop free queue ()
  have call : ∀ data rest, Run (Step one 1) ⟨c, .subscribing (data :: rest)⟩ _
      ⟨c, .subscribing rest⟩ := fun data rest => run_of_send (sent data) rfl (by simp)
  have both := ((call (buildSubscribeMsg one "@aggTrade" 1) _).trans
    (call (buildSubscribeMsg one "@bookTicker" 1) [])).snoc (.finish rfl (idle (some ())))
  exact ⟨_, both, by simp⟩

/-- The link comes up, and the poll sees it. -/
theorem run_polled : ∃ (events : List (Event String)) (c : State Unit String),
    Linked State.connecting c ∧
      Run (Step one 1) .started events ⟨c, .subscribing (subscribeSymbols one 1)⟩ := by
  obtain ⟨c, linked, up⟩ := run_linked (s := (State.connecting : State Unit String)) rfl rfl
  have polls : Run (Step one 1) ⟨.connecting, .polling 0⟩ _ ⟨c, .polling 0⟩ :=
    run_of_link linked (by simp) (.polling 0)
  exact ⟨_, c, up, polls.snoc (.pollReady rfl (by decide) up.ready)⟩

/-- After a read error a client that is at rest reconnects and is at rest again. -/
theorem run_again {c : State Unit String} (up : Linked State.connecting c) (creator : Creator) :
    ∃ f, Run (Step one 1) ⟨c, creator⟩
      ([.silent, .silent, .silent, .silent, .silent, .silent, .attempt] ++
        [.attempt, .silent, .silent, .silent, .silent, .silent, .onReady, .silent])
      ⟨f, creator⟩ ∧ (∀ i, f.threads i = .idle) ∧ f.ready = true ∧ f.stop = false ∧
        f.mWriteInProgress = false ∧ f.mSendQueue = [] ∧ f.writes = 0 ∧ f.session = 1 := by
  have idle : ∀ i, c.threads i = .idle := congrFun up.threads
  obtain ⟨n, reading⟩ := up.started
  obtain ⟨d, breaks, lost⟩ := run_lost (idle none) reading up.stop
  have idle : ∀ i, d.threads i = .idle := by
    intro i
    cases i <;> simp [lost.threads, idle]
  obtain ⟨n, resolving⟩ := lost.resolving
  obtain ⟨f, relinked, again⟩ := run_linked (idle none) resolving
  refine ⟨f, (run_of_link breaks (by simp) _).trans (run_of_link relinked (by simp) _),
    fun i => (congrFun again.threads i).trans (idle i), again.ready, again.stop, ?_, ?_, ?_, ?_⟩
  · exact again.busy.trans (lost.busy.trans up.busy)
  · exact again.queue.trans (lost.queue.trans up.queue)
  · exact again.writes.trans (lost.writes.trans up.writes)
  · exact again.session.trans (lost.session.trans (congrArg Nat.succ up.session))

/-- The link breaks between the poll and the first send: the subscriptions reach the second
session. -/
theorem subscribed_iff_one : ∃ (events : List (Event String)) (s : Connection),
    Run (Step one 1) .started events s ∧ Up s ∧ s.client.session = 1 ∧
      Subscribed one 1 events s := by
  obtain ⟨before, c, up, polled⟩ := run_polled
  obtain ⟨f, again, idle, ready, stop, free, queue, writes, session⟩ :=
    run_again up (.subscribing (subscribeSymbols one 1))
  obtain ⟨later, sends, same⟩ := run_subscribed idle ready stop free queue
  have run := (polled.trans again).trans sends
  have atRest : Up ⟨f, .subscribed⟩ := ⟨ready, idle, writes⟩
  exact ⟨_, _, run, atRest, session,
    (subscribed_iff (List.cons_ne_nil _ _) run rfl atRest).1 _ _ rfl same⟩

/-- After a read error the client reconnects and is up again; nothing was handed to the new
session. -/
theorem reconnected_silent : ∃ (events : List (Event String)) (s : Connection),
    Run (Step one 1) .started events s ∧ s.creator = .subscribed ∧ Up s ∧
      s.client.session = 1 ∧ handed events = [] ∧ ¬ Subscribed one 1 events s := by
  obtain ⟨before, c, up, polled⟩ := run_polled
  obtain ⟨later, sends, -⟩ := run_subscribed (congrFun up.threads) up.ready up.stop up.busy up.queue
  obtain ⟨f, again, idle, ready, -, -, -, writes, session⟩ := run_again up .subscribed
  have nothing : ∀ earlier : List (Event String), handed (earlier ++
      ([.silent, .silent, .silent, .silent, .silent, .silent, .attempt] ++
        [.attempt, .silent, .silent, .silent, .silent, .silent, .onReady, .silent])) = [] :=
    fun earlier => by simp [handed]
  refine ⟨_, _, (polled.trans sends).trans again, rfl, ⟨ready, idle, writes⟩, session,
    nothing _, ?_⟩
  intro subscribed
  have first := subscribed _ (List.mem_cons_self ..)
  exact List.not_mem_nil (nothing _ ▸ first)

end RazorCrypto.BinanceMd
