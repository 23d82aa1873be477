import Mathlib.Data.List.Basic
import Mathlib.Data.List.Induction
import RazorCrypto.Foundation.Transition

/-!
# The life of a market-data module

`initialize` calls `request_connect`, which creates the connections and starts the print thread.
`on_stop` releases both, but only `stop` calls it, and only while `m_running` is set, which
`initialize` does not do. The destructor of `RT_CryptoMDBase` calls `stop` as well, when the members
of `Binance_MD` are gone and its `on_stop` with them.

Left out are the thread of `start`, which ends once `m_running` is cleared and is joined in `stop`,
and the time that the print thread takes to end: here a join returns.
-/

namespace RazorCrypto.BinanceMd.Lifecycle

open Transition (concat_eq_split)

/-- What becomes of a connection in `create_single_ws_conn`: it is ready in time and returned; it is
given up, with its operations pending, and `nullptr` returned; or an exception comes before there
are any. -/
inductive Attempt
  | ready
  | givenUp
  | failed
deriving DecidableEq

/-- A `Binance_MD`. A connection is named by its number among those created, and `closed` has the
ones that were closed. -/
structure Module where
  mRunning : Bool
  mPrintRunning : Bool
  printThreadJoinable : Bool
  mSpotConns : List Nat
  mUbaseConns : List Nat
  created : Nat
  closed : List Nat
deriving DecidableEq

/-- The module after its constructor. -/
def constructed : Module := ⟨false, true, false, [], [], 0, []⟩

/-- A turn of the loops over the attempts: the number of connections created, and those stored. -/
def createSingleWsConn : Nat × List Nat → Attempt → Nat × List Nat
  | (created, conns), .ready => (created + 1, conns ++ [created])
  | (created, conns), .givenUp => (created + 1, conns)
  | (created, conns), .failed => (created, conns)

/-- `create_spot_connections`, with `m_spot_conn_count` attempts. -/
def createSpotConnections (m : Module) (attempts : List Attempt) : Module :=
  let (created, conns) := attempts.foldl createSingleWsConn (m.created, m.mSpotConns)
  { m with created := created, mSpotConns := conns }

def createUbaseConnections (m : Module) (attempts : List Attempt) : Module :=
  let (created, conns) := attempts.foldl createSingleWsConn (m.created, m.mUbaseConns)
  { m with created := created, mUbaseConns := conns }

/-- The assignment to `m_print_thread`; `none` is `std::terminate`. -/
def startLatencyPrintTimer (m : Module) : Option Module :=
  if m.printThreadJoinable then none else some { m with printThreadJoinable := true }

def requestConnect (m : Module) (spot ubase : List Attempt) : Option (Int × Module) :=
  (startLatencyPrintTimer (createUbaseConnections (createSpotConnections m spot) ubase)).map
    fun m => (1, m)

/-- `request_connect` never returns 0, so that `initialize` takes it for a failure and returns. -/
def initialise (m : Module) (spot ubase : List Attempt) : Option (Int × Module) :=
  requestConnect m spot ubase

def start (m : Module) : Module :=
  if m.mRunning then m else { m with mRunning := true }

def stopAllConnections (m : Module) : Module :=
  { m with closed := m.closed ++ m.mSpotConns ++ m.mUbaseConns }

/-- `Binance_MD::on_stop`. -/
def onStop (m : Module) : Module :=
  { stopAllConnections { m with mPrintRunning := false, printThreadJoinable := false } with
    mSpotConns := [], mUbaseConns := [] }

/-- `RT_CryptoMDBase::stop`, with the `on_stop` that it finds. -/
def stop (hook : Module → Module) (m : Module) : Module :=
  if m.mRunning then hook { m with mRunning := false } else m

/-- The destructors: the members of `Binance_MD` go first, then the base class calls `stop` with its
own `on_stop`, which does nothing. A joinable thread must not be destroyed. -/
def destroy (m : Module) : Option Module :=
  if m.printThreadJoinable then none else some (stop id m)

/-- A call, with what becomes of the attempts to connect. -/
inductive Op
  | initialise (spot ubase : List Attempt)
  | start
  | stop

def call (m : Module) : Op → Option Module
  | .initialise spot ubase => (initialise m spot ubase).map Prod.snd
  | .start => some (start m)
  | .stop => some (stop onStop m)

/-- A module that is constructed and receives the calls. -/
def run (ops : List Op) : Option Module := ops.foldlM call constructed

/-- No call and no destructor terminates the process, and each connection is closed before the
members are destroyed. -/
def Clean (ops : List Op) : Prop :=
  ∃ m, run ops = some m ∧ (destroy m).isSome ∧ ∀ c < m.created, c ∈ m.closed

/-! ## The calls alone -/

/-- The last of the `start` and `stop` calls is a `start`. -/
def Running (ops : List Op) : Prop :=
  ∃ before after, ops = before ++ .start :: after ∧ .stop ∉ after

/-- An `initialize` was not followed by a `stop` of the running module. -/
def Pending (ops : List Op) : Prop :=
  ∃ before spot ubase after, ops = before ++ .initialise spot ubase :: after ∧
    ∀ middle rest, after = middle ++ .stop :: rest →
      ¬Running (before ++ .initialise spot ubase :: middle)

/-- No `initialize` comes while an earlier one is pending. -/
def Sequenced (ops : List Op) : Prop :=
  ∀ before spot ubase after, ops = before ++ .initialise spot ubase :: after → ¬Pending before

/-- A connection was given up. -/
def GivesUp (ops : List Op) : Prop :=
  ∃ spot ubase, .initialise spot ubase ∈ ops ∧ (.givenUp ∈ spot ∨ .givenUp ∈ ubase)

variable {ops before after : List Op} {op : Op} {spot ubase : List Attempt}

theorem not_running_nil : ¬Running [] := by
  rintro ⟨before, after, split, -⟩
  simp at split

theorem running_start : Running (ops ++ [.start]) := ⟨ops, [], rfl, by simp⟩

theorem not_running_stop : ¬Running (ops ++ [.stop]) := by
  rintro ⟨before, after, split, none⟩
  obtain ⟨-, -, same⟩ | ⟨rest, rfl, -⟩ := concat_eq_split split
  · cases same
  · simp at none

theorem running_initialise : Running (ops ++ [.initialise spot ubase]) ↔ Running ops := by
  constructor
  · rintro ⟨before, after, split, none⟩
    obtain ⟨-, -, same⟩ | ⟨rest, rfl, rfl⟩ := concat_eq_split split
    · cases same
    · exact ⟨before, rest, rfl, fun mem => none (List.mem_append_left _ mem)⟩
  · rintro ⟨before, after, rfl, none⟩
    exact ⟨before, after ++ [.initialise spot ubase], by simp, by simpa using none⟩

theorem not_pending_nil : ¬Pending [] := by
  rintro ⟨before, spot, ubase, after, split, -⟩
  simp at split

theorem pending_initialise : Pending (ops ++ [.initialise spot ubase]) :=
  ⟨ops, spot, ubase, [], rfl, fun middle rest split => by simp at split⟩

theorem Pending.of_concat (pending : Pending (ops ++ [op]))
    (other : ∀ spot ubase, op ≠ .initialise spot ubase) : Pending ops := by
  obtain ⟨before, spot, ubase, after, split, unstopped⟩ := pending
  obtain ⟨-, -, same⟩ | ⟨rest, rfl, rfl⟩ := concat_eq_split split
  · exact absurd same.symm (other spot ubase)
  · refine ⟨before, spot, ubase, rest, rfl, fun middle more eq => ?_⟩
    exact unstopped middle (more ++ [op]) (by simp [eq])

theorem pending_start : Pending (ops ++ [.start]) ↔ Pending ops := by
  refine ⟨fun pending => pending.of_concat nofun, ?_⟩
  rintro ⟨before, spot, ubase, after, rfl, unstopped⟩
  refine ⟨before, spot, ubase, after ++ [.start], by simp, fun middle rest split => ?_⟩
  obtain ⟨-, -, same⟩ | ⟨more, rfl, rfl⟩ := concat_eq_split split
  · cases same
  · exact unstopped middle more rfl

theorem pending_stop : Pending (ops ++ [.stop]) ↔ Pending ops ∧ ¬Running ops := by
  constructor
  · intro pending
    refine ⟨pending.of_concat nofun, ?_⟩
    obtain ⟨before, spot, ubase, after, split, unstopped⟩ := pending
    obtain ⟨-, -, same⟩ | ⟨rest, rfl, rfl⟩ := concat_eq_split split
    · cases same
    · exact unstopped rest [] rfl
  · rintro ⟨⟨before, spot, ubase, after, rfl, unstopped⟩, still⟩
    refine ⟨before, spot, ubase, after ++ [.stop], by simp, fun middle rest split => ?_⟩
    obtain ⟨-, rfl, -⟩ | ⟨more, rfl, rfl⟩ := concat_eq_split split
    · exact still
    · exact unstopped middle more rfl

theorem sequenced_nil : Sequenced [] := by
  intro before spot ubase after split
  simp at split

theorem Sequenced.of_concat (sequenced : Sequenced (ops ++ [op])) : Sequenced ops := by
  rintro before spot ubase after rfl
  exact sequenced before spot ubase (after ++ [op]) (by simp)

theorem Sequenced.concat (sequenced : Sequenced ops)
    (free : ∀ spot ubase, op = .initialise spot ubase → ¬Pending ops) :
    Sequenced (ops ++ [op]) := by
  intro before spot ubase after split
  obtain ⟨-, rfl, same⟩ | ⟨rest, rfl, rfl⟩ := concat_eq_split split
  · exact free spot ubase same.symm
  · exact sequenced before spot ubase rest rfl

theorem not_givesUp_nil : ¬GivesUp [] := by
  rintro ⟨spot, ubase, mem, -⟩
  cases mem

theorem givesUp_initialise : GivesUp (ops ++ [.initialise spot ubase]) ↔
    GivesUp ops ∨ .givenUp ∈ spot ∨ .givenUp ∈ ubase := by
  constructor
  · rintro ⟨spot', ubase', mem, lost⟩
    obtain mem | last := List.mem_append.1 mem
    · exact .inl ⟨spot', ubase', mem, lost⟩
    · cases List.mem_singleton.1 last
      exact .inr lost
  · rintro (⟨spot', ubase', mem, lost⟩ | lost)
    · exact ⟨spot', ubase', List.mem_append_left _ mem, lost⟩
    · exact ⟨spot, ubase, by simp, lost⟩

theorem givesUp_concat (other : ∀ spot ubase, op ≠ .initialise spot ubase) :
    GivesUp (ops ++ [op]) ↔ GivesUp ops := by
  constructor
  · rintro ⟨spot, ubase, mem, lost⟩
    obtain mem | last := List.mem_append.1 mem
    · exact ⟨spot, ubase, mem, lost⟩
    · exact absurd (List.mem_singleton.1 last).symm (other spot ubase)
  · rintro ⟨spot, ubase, mem, lost⟩
    exact ⟨spot, ubase, List.mem_append_left _ mem, lost⟩

/-! ## What the calls leave behind -/

/-- The connections known elsewhere, and those in the list, are among the ones created. -/
structure Numbered (others : Nat → Prop) (conns : Nat × List Nat) : Prop where
  below : ∀ c, others c ∨ c ∈ conns.2 → c < conns.1

/-- No connection is lost. -/
def Complete (others : Nat → Prop) (conns : Nat × List Nat) : Prop :=
  ∀ c < conns.1, others c ∨ c ∈ conns.2

section Attempts

variable {others : Nat → Prop} {conns : Nat × List Nat}

theorem Numbered.attempt (numbered : Numbered others conns) (attempt : Attempt) :
    Numbered others (createSingleWsConn conns attempt) := by
  obtain ⟨n, stored⟩ := conns
  refine ⟨fun c known => ?_⟩
  have below := numbered.below c
  cases attempt with
  | ready =>
      simp only [createSingleWsConn, List.mem_append, List.mem_singleton] at known below ⊢
      obtain known | known | rfl := known
      · exact Nat.lt_succ_of_lt (below (.inl known))
      · exact Nat.lt_succ_of_lt (below (.inr known))
      · exact Nat.lt_succ_self c
  | givenUp => exact Nat.lt_succ_of_lt (below known)
  | failed => exact below known

/-- The attempt loses a connection if it is given up. -/
theorem complete_attempt (numbered : Numbered others conns) (attempt : Attempt) :
    Complete others (createSingleWsConn conns attempt) ↔
      Complete others conns ∧ attempt ≠ .givenUp := by
  obtain ⟨n, stored⟩ := conns
  have unknown : ¬(others n ∨ n ∈ stored) := fun known =>
    absurd (numbered.below n known) n.lt_irrefl
  cases attempt with
  | ready =>
      simp only [Complete, createSingleWsConn, List.mem_append, List.mem_singleton]
      constructor
      · intro complete
        refine ⟨fun c below => ?_, nofun⟩
        obtain known | known | rfl := complete c (Nat.lt_succ_of_lt below)
        · exact .inl known
        · exact .inr known
        · exact absurd below c.lt_irrefl
      · rintro ⟨complete, -⟩ c below
        obtain less | rfl := Nat.lt_succ_iff_lt_or_eq.1 below
        · exact (complete c less).imp_right .inl
        · exact .inr (.inr rfl)
  | givenUp =>
      constructor
      · intro complete
        exact absurd (complete n n.lt_succ_self) unknown
      · rintro ⟨-, kept⟩
        exact absurd rfl kept
  | failed => simp [createSingleWsConn]

theorem attempts_complete (numbered : Numbered others conns) (attempts : List Attempt) :
    Numbered others (attempts.foldl createSingleWsConn conns) ∧
      (Complete others (attempts.foldl createSingleWsConn conns) ↔
        Complete others conns ∧ .givenUp ∉ attempts) := by
  induction attempts generalizing conns with
  | nil => simpa using numbered
  | cons attempt rest ih =>
      obtain ⟨after, complete⟩ := ih (numbered.attempt attempt)
      refine ⟨after, complete.trans ?_⟩
      rw [complete_attempt numbered, List.mem_cons, not_or, and_assoc, ne_comm]

end Attempts

/-- The module has the connection stored, or closed it. -/
def Module.Accounts (m : Module) (c : Nat) : Prop :=
  c ∈ m.closed ∨ c ∈ m.mSpotConns ∨ c ∈ m.mUbaseConns

section Loops

variable {m : Module}

theorem accounts_spot (c : Nat) :
    m.Accounts c ↔ (c ∈ m.closed ∨ c ∈ m.mUbaseConns) ∨ c ∈ m.mSpotConns := by
  rw [Module.Accounts, or_comm (a := c ∈ m.mSpotConns), or_assoc]

theorem accounts_ubase (c : Nat) :
    m.Accounts c ↔ (c ∈ m.closed ∨ c ∈ m.mSpotConns) ∨ c ∈ m.mUbaseConns :=
  or_assoc.symm

theorem createSpotConnections_complete (below : ∀ c, m.Accounts c → c < m.created)
    (attempts : List Attempt) :
    (∀ c, (createSpotConnections m attempts).Accounts c →
        c < (createSpotConnections m attempts).created) ∧
      ((∀ c < (createSpotConnections m attempts).created,
          (createSpotConnections m attempts).Accounts c) ↔
        (∀ c < m.created, m.Accounts c) ∧ .givenUp ∉ attempts) := by
  simp only [accounts_spot] at below ⊢
  have numbered : Numbered (fun c => c ∈ m.closed ∨ c ∈ m.mUbaseConns) (m.created, m.mSpotConns) :=
    ⟨below⟩
  obtain ⟨after, complete⟩ := attempts_complete numbered attempts
  exact ⟨after.below, complete⟩

theorem createUbaseConnections_complete (below : ∀ c, m.Accounts c → c < m.created)
    (attempts : List Attempt) :
    (∀ c, (createUbaseConnections m attempts).Accounts c →
        c < (createUbaseConnections m attempts).created) ∧
      ((∀ c < (createUbaseConnections m attempts).created,
          (createUbaseConnections m attempts).Accounts c) ↔
        (∀ c < m.created, m.Accounts c) ∧ .givenUp ∉ attempts) := by
  simp only [accounts_ubase] at below ⊢
  have numbered : Numbered (fun c => c ∈ m.closed ∨ c ∈ m.mSpotConns) (m.created, m.mUbaseConns) :=
    ⟨below⟩
  obtain ⟨after, complete⟩ := attempts_complete numbered attempts
  exact ⟨after.below, complete⟩

end Loops

/-- The module after the calls. -/
structure Left (ops : List Op) (m : Module) : Prop where
  running : m.mRunning = true ↔ Running ops
  joinable : m.printThreadJoinable = true ↔ Pending ops
  below : ∀ c, m.Accounts c → c < m.created
  complete : (∀ c < m.created, m.Accounts c) ↔ ¬GivesUp ops
  released : m.printThreadJoinable = false → m.mSpotConns = [] ∧ m.mUbaseConns = []

theorem constructed_left : Left [] constructed where
  running := by simp [constructed, not_running_nil]
  joinable := by simp [constructed, not_pending_nil]
  below := by simp [constructed, Module.Accounts]
  complete := by simp [constructed, not_givesUp_nil]
  released := fun _ => ⟨rfl, rfl⟩

namespace Left

variable {m : Module}

theorem after_start (h : Left ops m) : Left (ops ++ [.start]) (start m) := by
  have same : start m = { m with mRunning := true } := by
    unfold start
    split
    · next running => rw [← running]
    · rfl
  have gaveUp : GivesUp (ops ++ [.start]) ↔ GivesUp ops := givesUp_concat nofun
  rw [same]
  exact ⟨by simp [running_start], h.joinable.trans pending_start.symm, h.below,
    h.complete.trans (not_congr gaveUp.symm), h.released⟩

theorem after_stop (h : Left ops m) : Left (ops ++ [.stop]) (stop onStop m) := by
  have gaveUp : GivesUp (ops ++ [.stop]) ↔ GivesUp ops := givesUp_concat nofun
  unfold stop
  split
  · next running =>
      have accounts : ∀ c, (onStop { m with mRunning := false }).Accounts c ↔ m.Accounts c := by
        simp [onStop, stopAllConnections, Module.Accounts]
      refine ⟨?_, ?_, fun c known => h.below c ((accounts c).1 known), ?_, fun _ => ⟨rfl, rfl⟩⟩
      · simp [onStop, stopAllConnections, not_running_stop]
      · simp [onStop, stopAllConnections, pending_stop, h.running.1 running]
      · simp only [accounts, gaveUp]
        exact h.complete
  · next idle =>
      refine ⟨?_, ?_, h.below, h.complete.trans (not_congr gaveUp.symm), h.released⟩
      · simp [not_running_stop, idle]
      · rw [pending_stop, h.joinable, ← h.running]
        simp [idle]

theorem after_initialise (h : Left ops m) (free : m.printThreadJoinable = false)
    (spot ubase : List Attempt) :
    ∃ m', call m (.initialise spot ubase) = some m' ∧
      Left (ops ++ [.initialise spot ubase]) m' := by
  obtain ⟨belowSpot, completeSpot⟩ := createSpotConnections_complete h.below spot
  obtain ⟨below, complete⟩ := createUbaseConnections_complete belowSpot ubase
  have unstarted : (createUbaseConnections (createSpotConnections m spot) ubase).printThreadJoinable
      = false := free
  refine ⟨{ createUbaseConnections (createSpotConnections m spot) ubase with
    printThreadJoinable := true }, ?_, ?_⟩
  · simp [call, initialise, requestConnect, startLatencyPrintTimer, unstarted]
  · refine ⟨h.running.trans running_initialise.symm, ?_, below, complete.trans ?_, nofun⟩
    · simp [pending_initialise]
    · rw [completeSpot, h.complete, givesUp_initialise, not_or, not_or, and_assoc]

/-- The second assignment to the print thread. -/
theorem terminate_initialise (started : m.printThreadJoinable = true) (spot ubase : List Attempt) :
    call m (.initialise spot ubase) = none := by
  have still : (createUbaseConnections (createSpotConnections m spot) ubase).printThreadJoinable
      = true := started
  simp [call, initialise, requestConnect, startLatencyPrintTimer, still]

end Left

theorem run_concat : run (ops ++ [op]) = (run ops).bind fun m => call m op := by
  simp [run, List.foldlM_append]

/-- The calls go through exactly if they come in sequence. -/
theorem run_spec (ops : List Op) :
    (Sequenced ops ∧ ∃ m, run ops = some m ∧ Left ops m) ∨ (¬Sequenced ops ∧ run ops = none) := by
  induction ops using List.reverseRecOn with
  | nil => exact .inl ⟨sequenced_nil, constructed, rfl, constructed_left⟩
  | append_singleton ops op ih =>
      obtain ⟨sequenced, m, ran, left⟩ | ⟨broken, ran⟩ := ih
      · rw [run_concat, ran]
        cases op with
        | start => exact .inl ⟨sequenced.concat nofun, start m, rfl, left.after_start⟩
        | stop => exact .inl ⟨sequenced.concat nofun, stop onStop m, rfl, left.after_stop⟩
        | initialise spot ubase =>
            cases joinable : m.printThreadJoinable with
            | false =>
                obtain ⟨m', called, after⟩ := left.after_initialise joinable spot ubase
                refine .inl ⟨sequenced.concat fun _ _ _ => ?_, m', called, after⟩
                rw [← left.joinable, joinable]
                exact nofun
            | true =>
                refine .inr ⟨fun next => ?_, Left.terminate_initialise joinable spot ubase⟩
                exact next ops spot ubase [] rfl (left.joinable.1 joinable)
      · refine .inr ⟨fun next => broken next.of_concat, ?_⟩
        rw [run_concat, ran]
        rfl

example : Clean [.initialise [.ready, .failed] [.ready], .start, .stop] :=
  ⟨_, rfl, rfl, by decide⟩

end RazorCrypto.BinanceMd.Lifecycle
