import RazorCrypto.Shm.Plus.Attach
import RazorCrypto.Shm.Plus.Underway
import RazorCrypto.Strategy.DepthMap

/-!
# From the writer of a store to a strategy

The writer executes the stores of its `on_rtn_data` calls one at a time; the new data is copied word
by word, and its slot may hold anything before the copy is complete. A strategy in another process
subscribes to symbols through the store that its `md_manager` attached, and polls their records
through the pointers of `sub_md`. Here both run together: the writer's stores are the only ones that
change a `current_index` under the strategy, and what `get_cur` leads to is looked up in the memory
of that moment.

What the strategy does with the update that it found is not in the code; the update is read in the
same step as its index.
-/

universe u

namespace RazorCrypto.Strategy

open Transition FlatHashMap Shm

/-- The writer with the stores that are yet to come, and the strategy. -/
structure Market (α : Type u) where
  writer : ShmMdPlus α
  todo : List (Write α)
  mDepth10 : Table Nat Nat
  phase : TablePhase
  pass : Nat

/-- What is seen of a step. `called` has the answer of the call, `fetched` the update that `get_cur`
leads to. -/
inductive MarketEvent (α : Type u)
  | called (c : Call α) (accepted : Bool)
  | copied
  | stored
  | counted (r : Nat) (index : Nat)
  | unknown (symbol : Name)
  | subscribed (symbol : Name) (r : Nat)
  | polled (e : Event Nat)
  | fetched (pass : Nat) (r : Nat) (index : Nat) (data : α)

namespace Market

variable {α : Type u}

/-- A strategy without subscriptions, and a writer between two calls. -/
def start (writer : ShmMdPlus α) : Market α := ⟨writer, [], Table.new, .idle, 0⟩

/-- What the strategy sees. -/
def strategy (m : Market α) : TableState Nat :=
  ⟨fun r => (m.writer.shm.record r).currentIndex.toNat, m.mDepth10, m.phase, m.pass⟩

/-- The strategy goes on. -/
def polling (m : Market α) (t : TableState Nat) : Market α :=
  { m with mDepth10 := t.mDepth10, phase := t.phase, pass := t.pass }

end Market

/-- The reads of a pass that fetch nothing, its begin and its end. -/
def Event.Polls {R : Type u} : Event R → Prop
  | .began _ | .read _ | .ended _ => True
  | _ => False

variable {α : Type u}

/-! ## The history -/

/-- What the strategy takes part in. -/
def observed : MarketEvent α → Option (Event Nat)
  | .counted r index => some (.counted r index)
  | .subscribed _ r => some (.subscribed r)
  | .polled e => some e
  | .fetched pass r index _ => some (.fetched pass r index)
  | _ => none

/-- The updates under a key that calls accepted. -/
def accepted (events : List (MarketEvent α)) (key : UInt64) : List α :=
  events.filterMap fun
    | .called c true => if c.key = key then some c.newData else none
    | _ => none

/-- The number of updates of a record that were counted. -/
def countedOf (events : List (MarketEvent α)) (r : Nat) : Nat :=
  events.countP fun
    | .counted r' _ => r' = r
    | _ => false

variable {e : MarketEvent α}

theorem accepted_concat (events : List (MarketEvent α)) (c : Call α) (ok : Bool) (key : UInt64) :
    accepted (events ++ [.called c ok]) key =
      accepted events key ++ if ok ∧ c.key = key then [c.newData] else [] := by
  rw [accepted, List.filterMap_append]
  cases ok <;> by_cases same : c.key = key <;> simp [accepted, same]

theorem accepted_concat_of_ne (events : List (MarketEvent α)) (other : ∀ c ok, e ≠ .called c ok)
    (key : UInt64) : accepted (events ++ [e]) key = accepted events key := by
  rw [accepted, List.filterMap_append]
  cases e with
  | called c ok => exact absurd rfl (other c ok)
  | copied | stored | counted | unknown | subscribed | polled | fetched =>
      exact List.append_nil _

theorem countedOf_concat (events : List (MarketEvent α)) (r index : Nat) (r' : Nat) :
    countedOf (events ++ [.counted r index]) r' =
      countedOf events r' + if r = r' then 1 else 0 := by
  rw [countedOf, List.countP_append, List.countP_singleton]
  simp [countedOf]

theorem countedOf_concat_of_ne (events : List (MarketEvent α))
    (other : ∀ r index, e ≠ .counted r index) (r : Nat) :
    countedOf (events ++ [e]) r = countedOf events r := by
  rw [countedOf, List.countP_append]
  cases e with
  | counted r index => exact absurd rfl (other r index)
  | called | copied | stored | unknown | subscribed | polled | fetched => exact Nat.add_zero _

/-! ## The strategy alone -/

section

variable {hash : Nat → UInt64} {allocate : Nat → Bool} {m : Market α} {s t : TableState Nat}

/-- Only the writers count. -/
theorem TableStep.currentIndex {e : Event Nat} (taken : TableStep hash allocate s e t)
    (uncounted : ∀ r index, e ≠ .counted r index) : t.currentIndex = s.currentIndex := by
  cases taken with
  | onRtnData r => exact absurd rfl (uncounted r _)
  | subDepth10 | began | skip | test | bookmark | getCurNull | getCurTest | getCur | ended => rfl

theorem strategy_polling {e : Event Nat} (taken : TableStep hash allocate m.strategy e t)
    (uncounted : ∀ r index, e ≠ .counted r index) : (m.polling t).strategy = t := by
  have same := taken.currentIndex uncounted
  obtain ⟨currentIndex, mDepth10, phase, pass⟩ := t
  obtain rfl : currentIndex = m.strategy.currentIndex := same
  rfl

/-- A bookmark is only there for a subscription. -/
theorem subscribed_of_run {currentIndex : Nat → Nat} {events : List (Event Nat)} {a : State Nat}
    (run : Run Step (.start currentIndex) events a) (r : Nat) (marked : a.mDepth10 r ≠ none) :
    .subscribed r ∈ events := by
  induction run with
  | refl => exact absurd rfl marked
  | @snoc events a e b before taken ih =>
      have listed := Listed.of_run before
      refine List.mem_append.2 ?_
      cases taken with
      | onRtnData | began | skip | test | getCurNull | getCurTest | getCur | ended =>
          exact .inl (ih marked)
      | subDepth10 r' idle =>
          by_cases same : r = r'
          · exact .inr (by simp [same])
          · rw [State.mark_of_ne a same] at marked
            exact .inl (ih marked)
      | @bookmark r' todo phase =>
          by_cases same : r = r'
          · subst same
            exact .inl (ih (listed.subscribed r (by simp [phase, Phase.remaining])))
          · refine .inl (ih ?_)
            rwa [← State.mark_of_ne a same]

/-- What is fetched was subscribed. -/
theorem subscribed_of_fetched {currentIndex : Nat → Nat} {events : List (Event Nat)}
    {a b : State Nat} {pass r index : Nat} (run : Run Step (.start currentIndex) events a)
    (taken : Step a (.fetched pass r index) b) : .subscribed r ∈ events := by
  have listed := Listed.of_run run
  cases taken with
  | getCur phase =>
      exact subscribed_of_run run r (listed.subscribed r (by simp [phase, Phase.remaining]))

end

/-! ## The steps of both -/

variable [MarketData α] (hash : Nat → UInt64) (allocate : Nat → Bool) (reader : ShmMdPlus α)

/-- One step: `on_rtn_data` begins, the writer copies a word of the new data or executes a store,
`sub_depth10` asks for a symbol, or `poll_depth10` makes its next read. -/
inductive MarketStep : Market α → MarketEvent α → Market α → Prop
  | called {m} (c : Call α) (free : m.todo = []) :
      MarketStep m (.called c (m.writer.call c).2)
        { m with
          writer := { (m.writer.call c).1 with shm := m.writer.shm }
          todo := m.writer.rtnDataWrites c }
  | copied {m i slot newData ws} (next : m.todo = .storeDat i slot newData :: ws) (partly : α) :
      MarketStep m .copied
        { m with writer := { m.writer with shm := m.writer.shm.write (.storeDat i slot partly) } }
  | stored {m w ws} (next : m.todo = w :: ws) (uncounted : ∀ r, w ≠ .incIndex r) :
      MarketStep m .stored
        { m with writer := { m.writer with shm := m.writer.shm.write w }, todo := ws }
  | counted {m r ws} (next : m.todo = .incIndex r :: ws) :
      MarketStep m (.counted r (m.strategy.currentIndex r + 1))
        { m with writer := { m.writer with shm := m.writer.shm.write (.incIndex r) }, todo := ws }
  | unknown {m symbol} (idle : m.phase = .idle) (absent : reader.subMd symbol = none) :
      MarketStep m (.unknown symbol) m
  | subscribed {m symbol r t} (found : reader.subMd symbol = some r)
      (taken : TableStep hash allocate m.strategy (.subscribed r) t) :
      MarketStep m (.subscribed symbol r) (m.polling t)
  | polled {m e t} (polls : e.Polls) (taken : TableStep hash allocate m.strategy e t) :
      MarketStep m (.polled e) (m.polling t)
  | fetched {m r index slot t}
      (taken : TableStep hash allocate m.strategy (.fetched m.pass r index) t)
      (found : (m.writer.shm.record r).getCur = some slot) :
      MarketStep m (.fetched m.pass r index ((m.writer.shm.record r).dat slot)) (m.polling t)

variable {hash : Nat → UInt64} {allocate : Nat → Bool} {reader : ShmMdPlus α}
  {m m' : Market α} {events : List (MarketEvent α)}

/-! ## The writer and the strategy -/

/-- What an event tells besides what happened. -/
def Told (reader : ShmMdPlus α) : MarketEvent α → Prop
  | .subscribed symbol r => reader.subMd symbol = some r
  | .polled e => e.Polls
  | _ => True

theorem told_of_run (run : Run (MarketStep hash allocate reader) m events m') :
    ∀ e ∈ events, Told reader e := by
  induction run with
  | refl => exact List.forall_mem_nil _
  | snoc _ taken ih =>
      rw [List.forall_mem_append, List.forall_mem_singleton]
      refine ⟨ih, ?_⟩
      cases taken with
      | called | copied | stored | counted | unknown | fetched => trivial
      | subscribed found => exact found
      | polled polls => exact polls

/-- What the runs have kept: the writer is in the middle of a call or between two, and its counts
are those of the history. The instruments are those that the strategy can find. -/
structure Follows (M N : Nat) (reader : ShmMdPlus α) (earlier : UInt64 → List α)
    (events : List (MarketEvent α)) (m : Market α) : Prop where
  midway : ShmMdPlus.Midway M N reader.mInstrumentsAddress
    (fun key => earlier key ++ accepted events key) m.writer m.todo
  counts : ∀ key r, reader.mInstrumentsAddress.lookup key = some r →
    m.strategy.currentIndex r = (earlier key).length + countedOf events r

namespace Follows

variable {M N : Nat} {earlier : UInt64 → List α}

theorem midway_of {todo : List (Write α)} (h : Follows M N reader earlier events m)
    (left : m.todo = todo) : ShmMdPlus.Midway M N reader.mInstrumentsAddress
      (fun key => earlier key ++ accepted events key) m.writer todo := by
  rw [← left]
  exact h.midway

/-- A step of the strategy. -/
theorem polling (h : Follows M N reader earlier events m) (uncalled : ∀ c ok, e ≠ .called c ok)
    (uncounted : ∀ r index, e ≠ .counted r index) (t : TableState Nat) :
    Follows M N reader earlier (events ++ [e]) (m.polling t) := by
  refine ⟨?_, fun key r found => ?_⟩
  · simp only [accepted_concat_of_ne events uncalled]
    exact h.midway
  · rw [countedOf_concat_of_ne events uncounted]
    exact h.counts key r found

theorem counted_index {r : Nat} {ws : List (Write α)} (h : Follows M N reader earlier events m)
    (next : m.todo = .incIndex r :: ws) (r' : Nat) :
    ((m.writer.shm.write (.incIndex r)).record r').currentIndex.toNat =
      m.strategy.currentIndex r' + if r = r' then 1 else 0 := by
  have live := (h.midway_of next).live
  by_cases same : r = r'
  · subst same
    rw [if_pos rfl, Region.write, Region.modify_record_self]
    change ((m.writer.shm.record r).currentIndex + 1).toNat = _
    exact Int.toNat_add live (by decide)
  · rw [if_neg same, Region.write_record_of_ne (by simpa [Write.record?] using same)]
    rfl

theorem step (h : Follows M N reader earlier events m)
    (taken : MarketStep hash allocate reader m e m') :
    Follows M N reader earlier (events ++ [e]) m' := by
  cases taken with
  | called c free =>
      refine ⟨?_, fun key r found => ?_⟩
      · simp only [accepted_concat, ← List.append_assoc]
        exact (h.midway_of free).call c
      · rw [countedOf_concat_of_ne events (by simp)]
        exact h.counts key r found
  | copied next partly =>
      refine ⟨?_, fun key r found => ?_⟩
      · simp only [accepted_concat_of_ne (e := .copied) events (by simp)]
        have copying := (h.midway_of next).copy partly
        rwa [← next] at copying
      · rw [countedOf_concat_of_ne events (by simp), ← h.counts key r found]
        exact congrArg Int.toNat (Region.storeDat_currentIndex ..)
  | stored next uncounted =>
      refine ⟨?_, fun key r found => ?_⟩
      · simp only [accepted_concat_of_ne (e := .stored) events (by simp)]
        exact (h.midway_of next).write
      · rw [countedOf_concat_of_ne events (by simp), ← h.counts key r found]
        exact (h.midway_of next).index uncounted r
  | @counted r ws next =>
      refine ⟨?_, fun key r' found => ?_⟩
      · have same := accepted_concat_of_ne (e := .counted r (m.strategy.currentIndex r + 1)) events
          (by simp)
        simp only [same]
        exact (h.midway_of next).write
      · rw [countedOf_concat, ← Nat.add_assoc, ← h.counts key r' found]
        exact h.counted_index next r'
  | unknown => exact h.polling (by simp) (by simp) m.strategy
  | subscribed found taken => exact h.polling (by simp) (by simp) _
  | polled => exact h.polling (by simp) (by simp) _
  | fetched => exact h.polling (by simp) (by simp) _

theorem start {b : Book comHash α} {writer : ShmMdPlus α} (represented : writer.Represents M N b)
    (lengths : writer.Lengths N) (known : ∀ key i, reader.mInstrumentsAddress.lookup key = some i →
      writer.mInstrumentsAddress.lookup key = some i) :
    Follows M N reader b.updates [] (.start writer) := by
  refine ⟨.rests represented lengths known fun key => List.append_nil _, fun key r found => ?_⟩
  change (writer.shm.record r).currentIndex.toNat = _
  rw [(represented.keeps_lookup (known key r found)).index]
  rfl

/-- What the strategy sees of a count. -/
theorem strategy_counted {r : Nat} {ws : List (Write α)} (h : Follows M N reader earlier events m)
    (next : m.todo = .incIndex r :: ws) :
    Market.strategy
        { m with writer := { m.writer with shm := m.writer.shm.write (.incIndex r) }, todo := ws } =
      ⟨Function.update m.strategy.currentIndex r (m.strategy.currentIndex r + 1), m.mDepth10,
        m.phase, m.pass⟩ := by
  refine congrArg (TableState.mk · m.mDepth10 m.phase m.pass) (funext fun r' => ?_)
  rw [h.counted_index next r']
  by_cases same : r = r'
  · subst same
    rw [if_pos rfl, Function.update_self]
  · rw [if_neg same, Function.update_of_ne (Ne.symm same)]
    rfl

/-- Each step that the strategy takes part in is one of its own. -/
theorem shown {e' : Event Nat} (h : Follows M N reader earlier events m)
    (taken : MarketStep hash allocate reader m e m')
    (seen : observed e = some e') : TableStep hash allocate m.strategy e' m'.strategy := by
  cases taken with
  | called | copied | stored | unknown => cases seen
  | @counted r ws next =>
      cases seen
      rw [h.strategy_counted next]
      exact .onRtnData r
  | subscribed found taken =>
      cases seen
      rwa [strategy_polling taken (by simp)]
  | @polled e _ polls taken =>
      cases seen
      rwa [strategy_polling taken]
      rintro r index rfl
      exact polls
  | fetched taken =>
      cases seen
      rwa [strategy_polling taken (by simp)]

/-- All other steps are hidden from it. -/
theorem hidden (h : Follows M N reader earlier events m)
    (taken : MarketStep hash allocate reader m e m') (unseen : observed e = none) :
    m'.strategy = m.strategy := by
  cases taken with
  | called | unknown => rfl
  | copied =>
      refine congrArg (TableState.mk · m.mDepth10 m.phase m.pass) (funext fun r => ?_)
      exact congrArg Int.toNat (Region.storeDat_currentIndex ..)
  | stored next uncounted =>
      have same := (h.midway_of next).index uncounted
      exact congrArg (TableState.mk · m.mDepth10 m.phase m.pass) (funext same)
  | counted | subscribed | polled | fetched => cases unseen

theorem strategy_run (start : Follows M N reader earlier [] m)
    (run : Run (MarketStep hash allocate reader) m events m') :
    Run (TableStep hash allocate) m.strategy (events.filterMap observed) m'.strategy :=
  run.observe (I := fun events m => Follows M N reader earlier events m) start step shown hidden

/-- What `get_cur` leads to. -/
theorem content (h : Follows M N reader earlier events m) {key : UInt64}
    {r slot : Nat} (known : reader.mInstrumentsAddress.lookup key = some r)
    (found : (m.writer.shm.record r).getCur = some slot) (two : 2 ≤ N) :
    (earlier key ++ accepted events key)[m.strategy.currentIndex r - 1]? =
      some ((m.writer.shm.record r).dat slot) := by
  obtain ⟨k, shows⟩ := h.midway.shows (by omega) known
  have index : m.strategy.currentIndex r = k := congrArg Int.toNat shows.index
  have counted : 1 ≤ k := by
    by_contra none
    rw [MdHeadPlus.getCur, shows.index, if_neg (by omega)] at found
    cases found
  rw [shows.getCur counted] at found
  cases found
  rw [index]
  exact shows.newest counted two

end Follows

/-- What a strategy fetches. The record is that of a symbol it subscribed to, the index is the
number of the updates of the symbol that were counted, and with two slots or more the update is the
last one of them. A single slot may hold anything, since the next update is copied to it before it
is counted. -/
def FetchesNewest (N : Nat) (earlier : UInt64 → List α) (events : List (MarketEvent α)) : Prop :=
  ∀ before pass r index data after, events = before ++ .fetched pass r index data :: after →
    (∃ symbol, .subscribed symbol r ∈ before) ∧
    ∀ symbol, .subscribed symbol r ∈ before →
      let key := comHash (cStr symbol)
      let updates := earlier key ++ accepted before key
      index = (earlier key).length + countedOf before r ∧
        (2 ≤ N → updates[index - 1]? = some data)

omit [MarketData α] in
theorem lookup_of_subMd {symbol : Name} {r : Nat} (found : reader.subMd symbol = some r) :
    reader.mInstrumentsAddress.lookup (comHash (cStr symbol)) = some r := by
  rw [ShmMdPlus.subMd] at found
  split at found
  · cases found
  · exact found

namespace Follows

variable {M N : Nat} {earlier : UInt64 → List α} {writer : ShmMdPlus α}

theorem fetchesNewest (start : Follows M N reader earlier [] (.start writer))
    (refuses : Refuses allocate)
    (run : Run (MarketStep hash allocate reader) (.start writer) events m) :
    FetchesNewest N earlier events := by
  rintro before pass r index data after rfl
  obtain ⟨middle, first, rest⟩ := run.split
  obtain ⟨_, taken, -⟩ := rest.uncons
  have follows := first.invariant (I := fun events m => Follows M N reader earlier events m) start
    Follows.step
  have told := told_of_run first
  cases taken with
  | fetched polled found =>
      refine ⟨?_, fun symbol subscribed => ?_⟩
      · obtain ⟨a, abstract, mirrors⟩ := Mirrors.of_run refuses (start.strategy_run first)
        obtain ⟨b, fetched, -⟩ := mirrors.step refuses polled
        obtain ⟨e, listed, seen⟩ := List.mem_filterMap.1 (subscribed_of_fetched abstract fetched)
        cases e with
        | called | copied | stored | counted | unknown | fetched => cases seen
        | subscribed symbol _ =>
            cases seen
            exact ⟨symbol, listed⟩
        | polled e =>
            cases seen
            exact (told _ listed).elim
      · have known := lookup_of_subMd (told _ subscribed)
        have content := follows.content known found
        have current : index = middle.strategy.currentIndex r := by
          cases polled
          rfl
        rw [current]
        exact ⟨follows.counts _ r known, content⟩

end Follows

/-- What `get_shm` returned, in whatever number of steps. -/
theorem attached_of_getShm {M N : Nat} {b : Book comHash α} {writer : ShmMdPlus α}
    (represented : writer.Represents M N b) (blocks : N < 2147483648) {page : Region α}
    {shmSize fuel : Nat} (attached : (ShmMdPlus.new page).getShm writer.shm shmSize fuel =
      some reader) : ShmMdPlus.Attached writer.shm N b.names.length reader := by
  have enough := b.names.length.lt_succ_self
  obtain ⟨other, same, reads⟩ := represented.getShm blocks page shmSize enough
  obtain ⟨next, found, rfl⟩ := Option.map_eq_some_iff.1 attached
  obtain rfl := ShmMdPlus.scanEnd_unique found (represented.scanEnd enough)
  rw [ShmMdPlus.getShm, represented.scanEnd enough, Option.map_some, Option.some_inj] at same
  rwa [same]

/-- A strategy that attached to a store after any calls, while the writer goes on: its table is
accessed where it has elements, every pass fetches the updates that were counted last, and with two
slots or more what it fetches under their numbers are the updates that the calls for its symbols
accepted. -/
theorem market_fetches_newest (page page' : Region α) {M N : Nat} {instruments : List Name}
    (capacity : M < 2147483648) (blocks : N < 2147483648)
    (room : instruments.length ≤ M) (distinct : (instruments.map comHash).Nodup)
    (calls : List (Call α))
    (labels : ∀ name ∈ ShmMdPlus.roster M instruments calls, comHash (stored name) = comHash name)
    {shmSize fuel : Nat} (attached : (ShmMdPlus.new page').getShm
      ((ShmMdPlus.start page M N instruments).run calls).1.shm shmSize fuel = some reader)
    (refuses : Refuses allocate)
    (run : Run (MarketStep hash allocate reader)
      (.start ((ShmMdPlus.start page M N instruments).run calls).1) events m) :
    m.strategy.Accessible hash allocate ∧ FetchesLatest (events.filterMap observed) ∧
      FetchesNewest N (history ((ShmMdPlus.start page M N instruments).run calls).2) events := by
  have lengths := (ShmMdPlus.Lengths.start page M instruments blocks).run calls
  obtain ⟨b, represented, names, updates⟩ := ShmMdPlus.run_represents
    (ShmMdPlus.start_represents page capacity blocks room distinct) calls
  rw [← names] at labels
  have reads := attached_of_getShm represented blocks attached
  have start : Follows M N reader b.updates []
      (.start ((ShmMdPlus.start page M N instruments).run calls).1) :=
    .start represented lengths fun key i found =>
      (represented.lookup_of_stored reads labels key).symm.trans found
  obtain ⟨a, abstract, mirrors⟩ := Mirrors.of_run refuses (start.strategy_run run)
  refine ⟨mirrors.accessible refuses, fetchesLatest_of_run abstract, ?_⟩
  rw [← funext updates]
  exact start.fetchesNewest refuses run

/-- A store of one instrument with two slots, before its first update. -/
def oneInstrument : ShmMdPlus UInt64 :=
  ((ShmMdPlus.start Region.zeroed 1 2 [[65]]).run []).1

/-- A reader of it. -/
def oneReader : ShmMdPlus UInt64 :=
  ((ShmMdPlus.new Region.zeroed).attach oneInstrument.shm 72 1).loadInstrumentsAddresses

/-- The update of the instrument. -/
def seven : Call UInt64 := ⟨[65], 7, none⟩

/-- A subscription, an update, and a pass. -/
def oneUpdate : List (MarketEvent UInt64) :=
  [.subscribed [65] 0, .called seven true, .copied, .stored, .counted 0 1, .polled (.began 1),
    .polled (.read 0), .polled (.read 0), .polled (.read 0), .fetched 1 0 1 7, .stored,
    .polled (.ended 1)]

/-- The table of the strategy, with a bookmark. -/
def oneBookmark (index : Nat) : Table Nat Nat :=
  ⟨[.free, .filled 0 (0, index), .free, .free, .free, .free, .free, .stop], 3, 62, 4, 1⟩

theorem attached_oneReader : (ShmMdPlus.new Region.zeroed).getShm oneInstrument.shm 72 2 =
    some oneReader := by
  have stops : ShmMdPlus.scanEnd oneInstrument.shm.record 2 0 = some 1 := by decide +kernel
  rw [ShmMdPlus.getShm, stops, Option.map_some, oneReader]

theorem assign_oneBookmark :
    (Table.new : Table Nat Nat).assign (fun _ => 7) (fun n => n < 100) 0 0 =
      .ok (oneBookmark 0) := rfl

theorem begin_oneBookmark (index : Nat) : (oneBookmark index).begin = .ok 1 := rfl

theorem deref_oneBookmark (index : Nat) : (oneBookmark index).deref 1 = .ok (0, index) := rfl

theorem next_oneBookmark (index : Nat) : (oneBookmark index).next 1 = .ok 7 := rfl

/-- The stores of the call. -/
theorem rtnDataWrites_seven : oneInstrument.rtnDataWrites seven =
    [.storeDat 0 0 7, .incIndex 0, .incUpdateNum] := by
  have attached : oneInstrument.mShmHead = true := by decide +kernel
  have found : oneInstrument.mInstrumentsAddress.lookup seven.key = some 0 := by decide +kernel
  have slot : (oneInstrument.shm.record 0).nextOffset oneInstrument.mdBlockNum = 0 := by
    decide +kernel
  simp only [ShmMdPlus.rtnDataWrites, attached, found, ShmMdPlus.offerWrites, slot,
    Bool.true_eq_false, if_false]
  rfl

/-- The market during the call, with the stores that are done and those to come. -/
def oneMarket (done todo : List (Write UInt64)) (index : Nat) (phase : TablePhase) (pass : Nat) :
    Market UInt64 :=
  ⟨{ (oneInstrument.call seven).1 with shm := oneInstrument.shm.writes done }, todo,
    oneBookmark index, phase, pass⟩

/-- What is stored up to the count: first a part of the data, then all of it. -/
def counting : List (Write UInt64) := [.storeDat 0 0 3, .storeDat 0 0 7, .incIndex 0]

/-- The record when the update is counted. -/
def recordOfSeven : MdHeadPlus UInt64 := (oneInstrument.shm.writes counting).record 0

abbrev OneStep : Market UInt64 → MarketEvent UInt64 → Market UInt64 → Prop :=
  MarketStep (fun _ => 7) (fun n => n < 100) oneReader

/-- The writer up to its count. -/
theorem oneUpdate_counted : Run OneStep (.start oneInstrument)
    [.subscribed [65] 0, .called seven true, .copied, .stored, .counted 0 1]
    (oneMarket counting [.incUpdateNum] 0 .idle 0) := by
  have found : oneReader.subMd [65] = some 0 := by decide +kernel
  have accepted : (oneInstrument.call seven).2 = true := by decide +kernel
  have zero : (Market.start oneInstrument).strategy.currentIndex 0 = 0 := by decide +kernel
  have before : (oneMarket [.storeDat 0 0 3, .storeDat 0 0 7] [.incIndex 0, .incUpdateNum] 0 .idle
      0).strategy.currentIndex 0 = 0 := by decide +kernel
  have subscribed : OneStep (.start oneInstrument) (.subscribed [65] 0)
      ⟨oneInstrument, [], oneBookmark 0, .idle, 0⟩ := by
    refine .subscribed found (.subDepth10 0 rfl ?_)
    rw [zero]
    exact assign_oneBookmark
  have called : OneStep ⟨oneInstrument, [], oneBookmark 0, .idle, 0⟩ (.called seven true)
      (oneMarket [] [.storeDat 0 0 7, .incIndex 0, .incUpdateNum] 0 .idle 0) := by
    rw [← accepted, ← rtnDataWrites_seven]
    exact .called seven rfl
  have copied : OneStep (oneMarket [] [.storeDat 0 0 7, .incIndex 0, .incUpdateNum] 0 .idle 0)
      .copied
      (oneMarket [.storeDat 0 0 3] [.storeDat 0 0 7, .incIndex 0, .incUpdateNum] 0 .idle 0) :=
    .copied rfl 3
  have counted : OneStep
      (oneMarket [.storeDat 0 0 3, .storeDat 0 0 7] [.incIndex 0, .incUpdateNum] 0 .idle 0) _
      (oneMarket counting [.incUpdateNum] 0 .idle 0) := .counted rfl
  rw [before] at counted
  exact .head subscribed <| .head called <| .head copied <| .head (.stored rfl (by simp)) <|
    .single counted

/-- The market while the pass goes on. -/
def passing (index : Nat) (phase : TablePhase) : Market UInt64 :=
  oneMarket counting [.incUpdateNum] index phase 1

/-- The pass of the strategy, with the last store of the writer in it. -/
theorem oneUpdate_fetched : Run OneStep (passing 0 (.visit 1))
    [.polled (.read 0), .polled (.read 0), .polled (.read 0), .fetched 1 0 1 7, .stored,
      .polled (.ended 1)]
    (oneMarket (counting ++ [.incUpdateNum]) [] 1 .idle 1) := by
  have one : recordOfSeven.currentIndex.toNat = 1 := by decide +kernel
  have slot : recordOfSeven.getCur = some 0 := by decide +kernel
  have data : recordOfSeven.dat 0 = 7 := by decide +kernel
  have new : (passing 0 (.visit 1)).strategy.currentIndex 0 ≠ 0 := by
    change recordOfSeven.currentIndex.toNat ≠ 0
    omega
  have bookmark : OneStep (passing 0 (.bookmark 1)) (.polled (.read 0))
      (passing 1 (.getCurTest 1)) := by
    have table : (oneBookmark 0).setSecond 1 recordOfSeven.currentIndex.toNat = oneBookmark 1 := by
      rw [one]
      rfl
    have read : TableStep (fun _ => 7) (fun n => n < 100) (passing 0 (.bookmark 1)).strategy
      (.read 0) _ := .bookmark rfl (deref_oneBookmark 0)
    have taken : OneStep (passing 0 (.bookmark 1)) (.polled (.read 0))
        { passing 0 (.getCurTest 1) with
          mDepth10 := (oneBookmark 0).setSecond 1 recordOfSeven.currentIndex.toNat } :=
      .polled (e := .read 0) trivial read
    rwa [table] at taken
  have fetched : OneStep (passing 1 (.getCurIndex 1)) (.fetched 1 0 1 7)
      (passing 1 (.visit 7)) := by
    have read : TableStep (fun _ => 7) (fun n => n < 100) (passing 1 (.getCurIndex 1)).strategy
      (.fetched 1 0 recordOfSeven.currentIndex.toNat) _ :=
        .getCur rfl (deref_oneBookmark 1) (next_oneBookmark 1)
    have taken : OneStep (passing 1 (.getCurIndex 1))
        (.fetched 1 0 recordOfSeven.currentIndex.toNat (recordOfSeven.dat 0))
        (passing 1 (.visit 7)) := .fetched read slot
    rwa [one, data] at taken
  have ended : TableStep (fun _ => 7) (fun n => n < 100)
      (oneMarket (counting ++ [.incUpdateNum]) [] 1 (.visit 7) 1).strategy
      (.ended 1) _ := .ended rfl rfl
  exact .head (.polled trivial (.test rfl (by decide) (deref_oneBookmark 0) new)) <|
    .head bookmark <|
    .head (.polled trivial (.getCurTest rfl (deref_oneBookmark 1) one.ge)) <| .head fetched <|
    .head (.stored rfl (by simp)) <|
    .single (.polled (e := .ended 1) trivial ended)

theorem oneUpdate_run : ∃ m, Run OneStep (.start oneInstrument) oneUpdate m :=
  ⟨_, oneUpdate_counted.trans <|
    .head (.polled trivial (.began rfl (begin_oneBookmark 0))) oneUpdate_fetched⟩

theorem market_fetches_newest_oneUpdate :
    ∃ m : Market UInt64, Run OneStep (.start oneInstrument) oneUpdate m ∧
      m.strategy.Accessible (fun _ => 7) (fun n => n < 100) ∧
      FetchesLatest (oneUpdate.filterMap observed) ∧
      FetchesNewest 2 (history ((ShmMdPlus.start Region.zeroed 1 2 [[65]]).run []).2)
        oneUpdate := by
  obtain ⟨m, run⟩ := oneUpdate_run
  refine ⟨m, run, ?_⟩
  exact market_fetches_newest Region.zeroed Region.zeroed (by decide) (by decide) (by decide)
    (by decide) [] (by decide) attached_oneReader refuses_hundred run

end RazorCrypto.Strategy
