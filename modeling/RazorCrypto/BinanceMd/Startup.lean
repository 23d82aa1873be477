import RazorCrypto.BinanceMd.Configuration
import RazorCrypto.BinanceMd.Latency
import RazorCrypto.BinanceMd.Lifecycle
import RazorCrypto.BinanceMd.Subscription

/-!
# The connections of a configuration

`request_connect` makes the connections that the configuration asks for. Each gets a number, the
spot connections from 1 and the futures connections from 100 on, and an entry of the statistics
under its number. `update_latency_stats` and `reset_conn_stats` find an entry by the number alone.
`on_reconn` resets the entry of its connection. The latencies are those of `process_md_data`, which
is given the number of a connection; the handlers of the connections do not call it.

Left out are the overflow of the numbers, the report, which resets what it prints, and the stores,
which the constructor opens as well.
-/

namespace RazorCrypto.BinanceMd.Startup

open Fallible Lifecycle Shm WrappingTally

/-- The connections of one product are numbered from here on. -/
def firstId : ProductType → Int
  | .SPOT => 1
  | .UMARGIN => 100

def connId (product : ProductType) (i : Nat) : Int := i + firstId product

/-- The product in `init_conn_stats`. -/
def productName : ProductType → Name
  | .SPOT => ascii "Spot"
  | .UMARGIN => ascii "UBase(Future)"

/-- A connection that was stored, with what `subscribe_symbols` sent on it. -/
structure Stored where
  connId : Int
  sent : List String
deriving DecidableEq

/-- A turn of the loops. What becomes of the attempt is given. -/
def createConnection (product : ProductType) (symbols : List String) (outcome : Nat → Attempt)
    (c : LatencyStats × List Stored) (i : Nat) : LatencyStats × List Stored :=
  let connId := connId product i
  let stats := c.1.initConnStats connId (productName product)
  match outcome i with
  | .ready => (stats, c.2 ++ [⟨connId, subscribeSymbols symbols connId⟩])
  | _ => (stats, c.2)

/-- The functions of the two products. -/
def createConnections (product : ProductType) (symbols : List String) (connCount : Int)
    (outcome : Nat → Attempt) (c : LatencyStats × List Stored) : LatencyStats × List Stored :=
  if symbols.isEmpty || connCount ≤ 0 then c
  else (List.range connCount.toNat).foldl (createConnection product symbols outcome) c

/-- `g_conn_latency_stats`, and the connections that are stored. -/
structure Connections where
  stats : LatencyStats
  mSpotConns : List Stored
  mUbaseConns : List Stored

def createSpotConnections (s : Settings) (outcome : Nat → Attempt) (c : Connections) :
    Connections :=
  let (stats, conns) := createConnections .SPOT s.spotSymbols s.mSpotConnCount outcome
    (c.stats, c.mSpotConns)
  { c with stats := stats, mSpotConns := conns }

def createUbaseConnections (s : Settings) (outcome : Nat → Attempt) (c : Connections) :
    Connections :=
  let (stats, conns) := createConnections .UMARGIN s.ubaseSymbols s.mUbaseConnCount outcome
    (c.stats, c.mUbaseConns)
  { c with stats := stats, mUbaseConns := conns }

/-- `request_connect` of a new module. -/
def requestConnect (s : Settings) (outcome : ProductType → Nat → Attempt) : Connections :=
  createUbaseConnections s (outcome .UMARGIN)
    (createSpotConnections s (outcome .SPOT) ⟨.empty, [], []⟩)

/-- The number of attempts for a product. -/
def attempts (symbols : List String) (connCount : Int) : Nat :=
  if symbols.isEmpty then 0 else connCount.toNat

/-- The number of connections that are attempted. -/
def attempted (s : Settings) : ProductType → Nat
  | .SPOT => attempts s.spotSymbols s.mSpotConnCount
  | .UMARGIN => attempts s.ubaseSymbols s.mUbaseConnCount

/-! ## What the loops leave -/

variable {product : ProductType} {symbols : List String} {outcome : Nat → Attempt}
  {c : LatencyStats × List Stored} {stats : LatencyStats} {id : Int} {n : Nat}

theorem initConnStats_apply (stats : LatencyStats) (connId : Int) (type : Name) (id : Int) :
    stats.initConnStats connId type id =
      (stats id).or (if id = connId then some (.construct connId type) else none) := by
  by_cases same : id = connId
  · subst same
    rw [if_pos rfl, LatencyStats.initConnStats]
    cases found : stats id with
    | none => simp
    | some s => simp [found]
  · rw [if_neg same, Option.or_none, LatencyStats.initConnStats_of_ne same]

/-- The entry of a number that one of the first connections of a product has. -/
def entry (product : ProductType) (n : Nat) (id : Int) : Option ConnLatencyStats :=
  if firstId product ≤ id ∧ id < n + firstId product then some (.construct id (productName product))
  else none

theorem createConnection_fst (i : Nat) : (createConnection product symbols outcome c i).1 =
    c.1.initConnStats (connId product i) (productName product) := by
  rw [createConnection]
  cases outcome i <;> rfl

theorem entry_succ (product : ProductType) (n : Nat) (id : Int) :
    (entry product n id).or (if id = connId product n then
      some (.construct id (productName product)) else none) = entry product (n + 1) id := by
  unfold entry connId
  by_cases last : id = n + firstId product
  · subst last
    rw [if_neg (by omega), if_pos rfl, if_pos (by omega)]
    rfl
  · rw [if_neg last, Option.or_none]
    exact if_congr (by omega) rfl rfl

theorem foldl_createConnection_fst (n : Nat) (id : Int) :
    ((List.range n).foldl (createConnection product symbols outcome) c).1 id =
      (c.1 id).or (entry product n id) := by
  induction n with
  | zero =>
      have none : entry product 0 id = none := if_neg (by omega)
      rw [none, Option.or_none]
      rfl
  | succ n ih =>
      rw [List.range_succ, List.foldl_append, List.foldl_cons, List.foldl_nil,
        createConnection_fst, initConnStats_apply, ih, Option.or_assoc, ← entry_succ]
      congr 2
      exact ite_congr rfl (fun same => by rw [same]) fun _ => rfl

/-- The connections that are stored, of the first ones of a product. -/
def stored (product : ProductType) (symbols : List String) (outcome : Nat → Attempt) (n : Nat) :
    List Stored :=
  ((List.range n).filter fun i => outcome i = .ready).map fun i =>
    ⟨connId product i, subscribeSymbols symbols (connId product i)⟩

theorem foldl_createConnection_snd (n : Nat) :
    ((List.range n).foldl (createConnection product symbols outcome) c).2 =
      c.2 ++ stored product symbols outcome n := by
  induction n with
  | zero => simp [stored]
  | succ n ih =>
      rw [List.range_succ, List.foldl_append, List.foldl_cons, List.foldl_nil, createConnection, ih,
        stored, stored, List.range_succ, List.filter_append, List.map_append]
      cases ready : outcome n <;> simp [ready]

theorem createConnections_eq (product : ProductType) (symbols : List String) (connCount : Int)
    (outcome : Nat → Attempt) (c : LatencyStats × List Stored) :
    createConnections product symbols connCount outcome c =
      (List.range (attempts symbols connCount)).foldl
        (createConnection product symbols outcome) c := by
  rw [createConnections, attempts]
  cases empty : symbols.isEmpty with
  | true => rfl
  | false =>
      by_cases none : connCount ≤ 0
      · simp [none, Int.toNat_of_nonpos none]
      · simp [none]

/-- What `request_connect` leaves: the first loop that comes to a number makes its entry. -/
theorem requestConnect_stats (s : Settings) (outcome : ProductType → Nat → Attempt) (id : Int) :
    (requestConnect s outcome).stats id =
      (entry .SPOT (attempted s .SPOT) id).or (entry .UMARGIN (attempted s .UMARGIN) id) := by
  simp only [requestConnect, createUbaseConnections, createSpotConnections, createConnections_eq,
    foldl_createConnection_fst]
  rfl

theorem requestConnect_conns (s : Settings) (outcome : ProductType → Nat → Attempt) :
    (requestConnect s outcome).mSpotConns =
        stored .SPOT s.spotSymbols (outcome .SPOT) (attempted s .SPOT) ∧
      (requestConnect s outcome).mUbaseConns =
        stored .UMARGIN s.ubaseSymbols (outcome .UMARGIN) (attempted s .UMARGIN) := by
  simp only [requestConnect, createUbaseConnections, createSpotConnections, createConnections_eq,
    foldl_createConnection_snd]
  exact ⟨rfl, rfl⟩

/-! ## Calls that change the statistics -/

/-- A call with the number of a connection of a product: `update_latency_stats` with a latency, or
`reset_conn_stats`. -/
structure StatsCall where
  product : ProductType
  index : Nat
  latency? : Option Int

def StatsCall.connId (s : StatsCall) : Int := Startup.connId s.product s.index

/-- What a call leaves. -/
def perform (stats : LatencyStats) (s : StatsCall) : LatencyStats :=
  match s.latency? with
  | some latency => stats.updateLatencyStats s.connId (UInt64.ofInt latency)
  | none => stats.resetConnStats s.connId

/-- The latencies after one more call, if it counts. -/
def record (counts : StatsCall → Bool) (latencies : List Int) (s : StatsCall) : List Int :=
  if counts s then
    match s.latency? with
    | some latency => latencies ++ [latency]
    | none => []
  else latencies

/-- The latencies since the last reset. -/
def since (counts : StatsCall → Bool) (calls : List StatsCall) : List Int :=
  calls.foldl (record counts) []

/-- The latencies of one connection. -/
def own (product : ProductType) (i : Nat) : List StatsCall → List Int :=
  since fun s => s.product = product ∧ s.index = i

/-- The latencies of all calls with this number. -/
def arrived (id : Int) : List StatsCall → List Int := since fun s => s.connId = id

variable {calls : List StatsCall} {counts counts' : StatsCall → Bool} {latencies : List Int}

theorem since_congr (same : ∀ s ∈ calls, counts s = counts' s) :
    since counts calls = since counts' calls :=
  List.foldl_ext _ _ _ fun latencies s inside => by rw [record, record, same s inside]

theorem perform_of_ne {s : StatsCall} (ne : id ≠ s.connId) : perform stats s id = stats id := by
  rw [perform]
  cases s.latency? with
  | some latency => exact LatencyStats.updateLatencyStats_of_ne ne _
  | none => exact LatencyStats.resetConnStats_of_ne ne

theorem tallied_perform (h : stats.Tallied id latencies) (s : StatsCall) :
    (perform stats s).Tallied id (record (fun s => s.connId = id) latencies s) := by
  by_cases own : s.connId = id
  · subst own
    rw [perform, record]
    cases s.latency? with
    | some latency => simpa using h.updateLatencyStats latency
    | none => simpa using h.resetConnStats
  · simpa [record, own] using h.of_eq (perform_of_ne (Ne.symm own))

/-- No call changes the product of an entry. -/
theorem productType_perform (stats : LatencyStats) (s : StatsCall) (id : Int) :
    (perform stats s id).map ConnLatencyStats.productType =
      (stats id).map ConnLatencyStats.productType := by
  by_cases own : id = s.connId
  · subst own
    rw [perform]
    cases found : stats s.connId <;> cases s.latency? <;>
      simp [LatencyStats.updateLatencyStats, LatencyStats.resetConnStats, found]
  · rw [perform_of_ne own]

/-- An entry of a product that has the tally of these latencies. -/
structure Entry (stats : LatencyStats) (id : Int) (product : ProductType) (latencies : List Int) :
    Prop where
  productType : (stats id).map ConnLatencyStats.productType = some (productName product)
  tallied : stats.Tallied id latencies

theorem Entry.perform (h : Entry stats id product latencies) (s : StatsCall) :
    Entry (perform stats s) id product (record (fun s => s.connId = id) latencies s) :=
  ⟨(productType_perform stats s id).trans h.productType, tallied_perform h.tallied s⟩

theorem Entry.performAll (h : Entry stats id product latencies) (calls : List StatsCall) :
    Entry (calls.foldl Startup.perform stats) id product
      (calls.foldl (record fun s => s.connId = id) latencies) := by
  induction calls generalizing stats latencies with
  | nil => exact h
  | cons s calls ih => exact ih (h.perform s)

/-! ## Whose entry it is -/

variable {settings : Settings} {i : Nat} {outcomes : ProductType → Nat → Attempt}

/-- The product whose loop makes the entry of a number that is attempted. -/
def maker (settings : Settings) (id : Int) : ProductType :=
  if id < attempted settings .SPOT + 1 then .SPOT else .UMARGIN

theorem entry_requestConnect (outcomes : ProductType → Nat → Attempt)
    (inside : i < attempted settings product) :
    Entry (requestConnect settings outcomes).stats (connId product i)
      (maker settings (connId product i)) [] := by
  have made : (requestConnect settings outcomes).stats (connId product i) =
      some (.construct (connId product i) (productName (maker settings (connId product i)))) := by
    rw [requestConnect_stats, maker]
    cases product with
    | SPOT =>
        have first : connId .SPOT i < attempted settings .SPOT + 1 := by
          simp only [connId, firstId]
          omega
        rw [if_pos first, entry, if_pos ⟨by simp only [connId, firstId]; omega, first⟩]
        rfl
    | UMARGIN =>
        have range : 100 ≤ connId .UMARGIN i ∧
            connId .UMARGIN i < attempted settings .UMARGIN + 100 := by
          simp only [connId, firstId]
          omega
        by_cases first : connId .UMARGIN i < attempted settings .SPOT + 1
        · rw [if_pos first, entry, if_pos ⟨by simp only [firstId]; omega, first⟩]
          rfl
        · have none : entry .SPOT (attempted settings .SPOT) (connId .UMARGIN i) = none :=
            if_neg fun both => first both.2
          rw [if_neg first, none, Option.none_or, entry]
          exact if_pos range
  exact ⟨congrArg (Option.map ConnLatencyStats.productType) made, _, made, rfl⟩

/-- A call for a connection that is attempted. -/
def Attempted (settings : Settings) (s : StatsCall) : Prop := s.index < attempted settings s.product

/-- After any calls for the connections, each of them has an entry of its own product with the
latencies of its own calls. -/
def Separate (settings : Settings) (stats : LatencyStats) : Prop :=
  ∀ calls, (∀ s ∈ calls, Attempted settings s) →
    ∀ product i, i < attempted settings product →
      Entry (calls.foldl perform stats) (connId product i) product (own product i calls)

theorem productName_ne : productName .SPOT ≠ productName .UMARGIN := by decide

/-- No number is given twice. -/
def Apart (settings : Settings) : Prop :=
  attempted settings .SPOT < 100 ∨ attempted settings .UMARGIN = 0

instance (settings : Settings) : Decidable (Apart settings) := inferInstanceAs (Decidable (_ ∨ _))

theorem Apart.connId_inj (apart : Apart settings) {p q : ProductType} {j : Nat}
    (inside : i < attempted settings p) (inside' : j < attempted settings q)
    (same : connId q j = connId p i) : q = p ∧ j = i := by
  unfold Apart at apart
  cases p <;> cases q <;> simp only [connId, firstId] at same
  · exact ⟨rfl, by omega⟩
  · omega
  · omega
  · exact ⟨rfl, by omega⟩

theorem Apart.maker (apart : Apart settings) (inside : i < attempted settings product) :
    maker settings (connId product i) = product := by
  unfold Apart at apart
  rw [Startup.maker]
  cases product with
  | SPOT => exact if_pos (by simp only [connId, firstId]; omega)
  | UMARGIN => exact if_neg (by simp only [connId, firstId]; omega)

theorem Apart.own_eq_arrived (apart : Apart settings) (inside : i < attempted settings product)
    (attempted : ∀ s ∈ calls, Attempted settings s) :
    own product i calls = arrived (connId product i) calls := by
  refine since_congr fun s member => decide_eq_decide.mpr ⟨?_, ?_⟩
  · rintro ⟨rfl, rfl⟩
    rfl
  · exact apart.connId_inj inside (attempted s member)

/-- After any calls, each number has the entry that was made first and the latencies of all
connections with the number. -/
theorem entry_performed (outcomes : ProductType → Nat → Attempt)
    (inside : i < attempted settings product) (calls : List StatsCall) :
    Entry (calls.foldl perform (requestConnect settings outcomes).stats) (connId product i)
      (maker settings (connId product i)) (arrived (connId product i) calls) :=
  (entry_requestConnect outcomes inside).performAll calls

/-- The connections are told apart exactly if no number is given twice. -/
theorem separate_iff_apart :
    Separate settings (requestConnect settings outcomes).stats ↔ Apart settings := by
  constructor
  · intro separate
    by_contra shared
    unfold Apart at shared
    have inside : 0 < attempted settings .UMARGIN := by omega
    -- the first futures connection finds the entry of the hundredth spot connection
    have futures := (separate [] nofun .UMARGIN 0 inside).productType
    have spot := (entry_performed outcomes inside []).productType
    have made : maker settings (connId .UMARGIN 0) = .SPOT :=
      if_pos (by simp only [connId, firstId]; omega)
    rw [made] at spot
    exact productName_ne (Option.some.inj (spot.symm.trans futures))
  · intro apart calls attempted product i inside
    have performed := entry_performed outcomes inside calls
    rwa [apart.maker inside, ← apart.own_eq_arrived inside attempted] at performed

/-! ## From the document on -/

/-- The constructor and `request_connect`. -/
def start (doc : JsonText.Value) (outcomes : ProductType → Nat → Attempt) :
    Except Failure (Settings × Connections) := do
  let settings ← parseConfig doc
  return (settings, requestConnect settings outcomes)

/-- A module starts from a document exactly if it is an object, and any settings have one. It
stores the connections that became ready, with their own subscriptions. In the statistics the
connections are told apart exactly if there are less than a hundred spot connections or no futures
connections; otherwise one entry, of the spot market, has the latencies of both. -/
theorem start_separates_iff (doc : JsonText.Value) (outcomes : ProductType → Nat → Attempt) :
    (Returns (start doc outcomes) ↔ isObject doc = true) ∧
    (∀ settings : Settings, settings.Valid →
      ∃ c, start settings.document outcomes = .ok (settings, c)) ∧
    ∀ settings c, start doc outcomes = .ok (settings, c) →
      c.mSpotConns =
        stored .SPOT settings.spotSymbols (outcomes .SPOT) (attempted settings .SPOT) ∧
      c.mUbaseConns =
        stored .UMARGIN settings.ubaseSymbols (outcomes .UMARGIN) (attempted settings .UMARGIN) ∧
      (∀ calls product i, i < attempted settings product →
        Entry (calls.foldl perform c.stats) (connId product i)
          (maker settings (connId product i)) (arrived (connId product i) calls)) ∧
      (Separate settings c.stats ↔ Apart settings) := by
  refine ⟨?_, ?_, ?_⟩
  · rw [start, returns_bind_pure, returns_parseConfig]
  · intro settings valid
    refine ⟨requestConnect settings outcomes, ?_⟩
    rw [start, parseConfig_document valid]
    rfl
  · intro settings c started
    obtain ⟨settings', -, same⟩ := exists_of_bind started
    cases same
    obtain ⟨spot, ubase⟩ := requestConnect_conns settings outcomes
    refine ⟨spot, ubase, ?_, separate_iff_apart⟩
    intro calls product i inside
    exact entry_performed outcomes inside calls

/-- A hundred spot connections and a futures connection. -/
def crowded : Settings :=
  ⟨["btcusdt"], 100, "spot_bbo", "spot_aggtrade", ["btcusdt"], 1, "future_ubase_bbo",
    "future_ubase_agg", 100000, 5000⟩

theorem crowded_valid : crowded.Valid where
  spot := by
    refine ⟨?_, ?_, ?_, ?_⟩ <;> simp [crowded, Settings.spot, IsCString, IsInt]
  futures := by
    refine ⟨?_, ?_, ?_, ?_⟩ <;> simp [crowded, Settings.futures, IsCString, IsInt]
  mdSize := by simp [crowded, IsInt]
  mLatencyIntervalMs := by simp [crowded, IsInt]

/-- Connection 100 is two connections. -/
theorem start_separates_iff_crowded : ∃ c,
    start crowded.document (fun _ _ => .ready) = .ok (crowded, c) ∧ ¬Separate crowded c.stats := by
  obtain ⟨-, reached, left⟩ := start_separates_iff crowded.document fun _ _ => .ready
  obtain ⟨c, started⟩ := reached crowded crowded_valid
  obtain ⟨-, -, -, apart⟩ := left crowded c started
  exact ⟨c, started, apart.not.mpr (by decide)⟩

end RazorCrypto.BinanceMd.Startup
