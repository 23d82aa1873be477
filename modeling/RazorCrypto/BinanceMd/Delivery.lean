import RazorCrypto.BinanceMd.Feed

/-!
# What the stores deliver

After any calls of `process_md_data`, each store has the last update of every configured symbol
and has counted them all, and so has each reader of it, whenever it attached.
-/

namespace RazorCrypto.BinanceMd

open Fallible MachineInt Shm ShmMdPlus

variable {δ : Type} [Zero δ]

/-- Symbols that a store tells apart and that fit in `instrument_id`. -/
structure Listable (names : List Name) : Prop where
  count : names.length < 2147483648
  short : ∀ name ∈ names, (∀ c ∈ name, c ≠ 0) ∧ name.length ≤ 15
  distinct : (names.map comHash).Nodup

/-- What the stores need of the configuration: names that fit in their labels and are told apart,
and a number of slots. -/
structure Config.Valid (config : Config) : Prop where
  blocks : 1 ≤ config.mdSize
  blocks' : config.mdSize < 2147483648
  spot : Listable (vectorUpper config.spotSymbols)
  ubase : Listable (vectorUpper config.ubaseSymbols)

/-- The store of a product with these symbols. -/
def openedFor {α : Type} [MarketData α] (page : Region α) (symbols : List Name) (mdSize : Int) :
    Option (ShmMdPlus α) :=
  if symbols.isEmpty then none else some (openStore page (vectorUpper symbols) mdSize)

/-- A store is there if its product has symbols, and it was offered these updates. -/
structure Holds {α : Type} [MarketData α] (symbols : List Name) (mdSize : Int)
    (said : List (UInt64 × α)) (shm : Option (ShmMdPlus α)) : Prop where
  present : shm.isSome = !symbols.isEmpty
  serves : ∀ s ∈ shm, Serves (vectorUpper symbols) mdSize.toNat said s

section Holds

variable {α : Type} [MarketData α] {symbols : List Name} {mdSize : Int}
  {said : List (UInt64 × α)} {shm : Option (ShmMdPlus α)}

theorem openStore_eq (page : Region α) {upper : List Name} (count : upper.length < 2147483648)
    (blocks : 1 ≤ mdSize) (blocks' : mdSize < 2147483648) :
    openStore page upper mdSize = ShmMdPlus.start page upper.length mdSize.toNat upper := by
  have slots : asUInt32 mdSize = mdSize.toNat := by
    rw [asUInt32]
    omega
  rw [openStore, slots, asUInt32_natCast, Nat.mod_eq_of_lt (by omega)]
  rfl

theorem Holds.opened (page : Region α) (listable : Listable (vectorUpper symbols))
    (blocks : 1 ≤ mdSize) (blocks' : mdSize < 2147483648) :
    Holds symbols mdSize [] (openedFor page symbols mdSize) := by
  rw [openedFor]
  cases empty : symbols.isEmpty with
  | true => exact ⟨by rw [empty]; rfl, nofun⟩
  | false =>
      refine ⟨by rw [empty]; rfl, fun s opened => ?_⟩
      obtain rfl := Option.some.inj opened
      rw [openStore_eq page listable.count blocks blocks']
      exact Serves.start page listable.count (by omega) listable.distinct

theorem Holds.take (h : Holds symbols mdSize said shm) (symbol : α → Name) (new : Option α) :
    Holds symbols mdSize
      (said ++ (new.map fun newData => (comHash (cStr (symbol newData)), newData)).toList)
      (take shm symbol new) := by
  cases new with
  | none =>
      rw [Option.map_none, Option.toList_none, List.append_nil]
      exact h
  | some newData =>
      refine ⟨(Option.isSome_map ..).trans h.present, fun s after => ?_⟩
      obtain ⟨before, present, rfl⟩ := Option.map_eq_some_iff.mp after
      exact ((h.serves before present).onRtnData (symbol newData) newData).1

end Holds

section
variable {strtod : Strtod δ} {parse : Name → Option Json} {config : Config}
  {feed feed' : Feed δ} {messages : List Message} {m : Message}

variable (strtod parse) in
/-- Each store was offered what the payloads said for it. -/
structure Feed.Holds (config : Config) (messages : List Message) (feed : Feed δ) : Prop where
  spotBbo : BinanceMd.Holds config.spotSymbols config.mdSize
    (tickers strtod parse .SPOT messages) feed.mSpotBboShm
  spotAgg : BinanceMd.Holds config.spotSymbols config.mdSize
    (trades strtod parse .SPOT messages) feed.mSpotAggShm
  ubaseBbo : BinanceMd.Holds config.ubaseSymbols config.mdSize
    (tickers strtod parse .UMARGIN messages) feed.mFutUbaseBboShm
  ubaseAgg : BinanceMd.Holds config.ubaseSymbols config.mdSize
    (trades strtod parse .UMARGIN messages) feed.mFutUbaseAggShm

/-- The second call of `init_shm` opens every store again. -/
theorem Feed.started_eq (config : Config) (pages pages' : Pages δ) : started config pages pages' =
    { mSpotBboShm := openedFor pages'.spotBbo config.spotSymbols config.mdSize
      mSpotAggShm := openedFor pages'.spotAgg config.spotSymbols config.mdSize
      mFutUbaseBboShm := openedFor pages'.ubaseBbo config.ubaseSymbols config.mdSize
      mFutUbaseAggShm := openedFor pages'.ubaseAgg config.ubaseSymbols config.mdSize } := by
  rw [started, initShm, initShm]
  simp only [openedFor]
  cases config.spotSymbols.isEmpty <;> cases config.ubaseSymbols.isEmpty <;> rfl

theorem Feed.Holds.started (valid : config.Valid) (pages pages' : Pages δ) :
    Feed.Holds strtod parse config [] (Feed.started config pages pages') := by
  rw [Feed.started_eq]
  exact ⟨.opened pages'.spotBbo valid.spot valid.blocks valid.blocks',
    .opened pages'.spotAgg valid.spot valid.blocks valid.blocks',
    .opened pages'.ubaseBbo valid.ubase valid.blocks valid.blocks',
    .opened pages'.ubaseAgg valid.ubase valid.blocks valid.blocks'⟩

theorem Feed.Holds.process (h : Feed.Holds strtod parse config messages feed)
    (returned : feed.process strtod parse m = .ok feed') :
    Feed.Holds strtod parse config (messages ++ [m]) feed' := by
  rw [process_eq returned]
  refine ⟨?_, ?_, ?_, ?_⟩
  · rw [tickers_concat]
    exact h.spotBbo.take _ _
  · rw [trades_concat]
    exact h.spotAgg.take _ _
  · rw [tickers_concat]
    exact h.ubaseBbo.take _ _
  · rw [trades_concat]
    exact h.ubaseAgg.take _ _

/-- The stores that `init_shm` opens. -/
def Config.stores (config : Config) : Stores :=
  ⟨!config.spotSymbols.isEmpty, !config.spotSymbols.isEmpty, !config.ubaseSymbols.isEmpty,
    !config.ubaseSymbols.isEmpty⟩

theorem Feed.Holds.stores_eq (h : Feed.Holds strtod parse config messages feed) :
    feed.stores = config.stores := by
  rw [Feed.stores, h.spotBbo.present, h.spotAgg.present, h.ubaseBbo.present, h.ubaseAgg.present]
  rfl

/-- What a call needs of its payload: `WellFormed` for the stores of its product. -/
def Message.WellFormed (strtod : Strtod δ) (parse : Name → Option Json) (stores : Stores)
    (m : Message) : Prop :=
  match m.product with
  | .SPOT => BinanceMd.WellFormed strtod stores.mSpotBboShm stores.mSpotAggShm
      (parsed parse m.data)
  | .UMARGIN => BinanceMd.WellFormed strtod stores.mFutUbaseBboShm stores.mFutUbaseAggShm
      (parsed parse m.data)

theorem Feed.Holds.returns_process (h : Feed.Holds strtod parse config messages feed) :
    Returns (feed.process strtod parse m) ↔ m.WellFormed strtod parse config.stores := by
  rw [Feed.process, returns_bind_pure, Feed.processed, Message.WellFormed, ← h.stores_eq]
  cases m.product with
  | SPOT =>
      exact returns_processMdData strtod m.now parse m.fillNow feed.stores.mSpotBboShm
        feed.stores.mSpotAggShm .SPOT m.data
  | UMARGIN =>
      exact returns_processMdData strtod m.now parse m.fillNow feed.stores.mFutUbaseBboShm
        feed.stores.mFutUbaseAggShm .UMARGIN m.data

/-- A sequence of calls returns exactly if the payloads allow it. -/
theorem Feed.Holds.returns_run (h : Feed.Holds strtod parse config messages feed)
    (more : List Message) : Returns (feed.run strtod parse more) ↔
      ∀ m ∈ more, m.WellFormed strtod parse config.stores := by
  induction more generalizing messages feed with
  | nil => exact iff_of_true (returns_pure feed) nofun
  | cons m more ih =>
      rw [Feed.run, List.foldlM_cons, returns_bind_iff, List.forall_mem_cons,
        ← h.returns_process]
      constructor
      · rintro ⟨next, step, rest⟩
        exact ⟨⟨next, step⟩, (ih (h.process step)).mp rest⟩
      · rintro ⟨⟨next, step⟩, rest⟩
        exact ⟨next, step, (ih (h.process step)).mpr rest⟩

theorem Feed.Holds.run (h : Feed.Holds strtod parse config messages feed) {more : List Message}
    (returned : feed.run strtod parse more = .ok feed') :
    Feed.Holds strtod parse config (messages ++ more) feed' := by
  induction more generalizing messages feed with
  | nil =>
      cases returned
      rwa [List.append_nil]
  | cons m more ih =>
      rw [Feed.run, List.foldlM_cons] at returned
      obtain ⟨next, step, rest⟩ := exists_of_bind returned
      rw [List.append_cons]
      exact ih (h.process step) rest

/-- What a store has delivered since it was `before`, at a time when it is `now`: it kept the last
update of each symbol and counted those of the known ones, and any reader that attached to it
before finds the same. -/
structure Delivers {α : Type} [MarketData α] (symbols : List Name) (said : List (UInt64 × α))
    (before now : ShmMdPlus α) : Prop where
  newest : ∀ symbol ∈ vectorUpper symbols,
    now.getCurMd symbol = some (latest said (comHash symbol))
  counts : ∀ symbol ∈ vectorUpper symbols,
    now.getUpdateNum symbol = (history said (comHash symbol)).length
  total : now.shm.head.updateNum =
    (said.filter fun update => update.1 ∈ (vectorUpper symbols).map comHash).length
  readers : ∀ page shmSize fuel reader, (new page).getShm before.shm shmSize fuel = some reader →
    Agrees now (reader.seeing now.shm)

theorem Holds.delivers {α : Type} [MarketData α] {symbols : List Name} {mdSize : Int}
    {said said' : List (UInt64 × α)} {shm shm' : Option (ShmMdPlus α)}
    (h : BinanceMd.Holds symbols mdSize said shm) (h' : BinanceMd.Holds symbols mdSize said' shm')
    (listable : Listable (vectorUpper symbols)) (blocks : 1 ≤ mdSize)
    (blocks' : mdSize < 2147483648) :
    ∀ before ∈ shm, ∀ now ∈ shm', Delivers symbols said' before now := by
  intro before first now last
  have serves := h'.serves now last
  refine ⟨fun symbol listed => ?_, fun symbol listed => ?_, serves.updateNum, ?_⟩
  · exact serves.getCurMd (by omega) (List.mem_map_of_mem listed)
  · exact serves.getUpdateNum (List.mem_map_of_mem listed)
  · intro page shmSize fuel reader attached
    exact (h.serves before first).reader_agrees serves (by omega) listable.short attached

/-- The document of a ticker of `BTCUSDT`. -/
def tickerDoc : Json := .object [(ascii "e", .string (ascii "bookTicker")), (ascii "E", .uint64 1),
  (ascii "s", .string (ascii "BTCUSDT")), (ascii "u", .uint64 2), (ascii "T", .uint64 1),
  (ascii "a", .string (ascii "7")), (ascii "A", .string (ascii "7")),
  (ascii "b", .string (ascii "7")), (ascii "B", .string (ascii "7"))]

def oneSymbol : Config := ⟨[ascii "btcusdt"], [], 1⟩

theorem oneSymbol_valid : oneSymbol.Valid where
  blocks := by decide
  blocks' := by decide
  spot := by
    have upper : vectorUpper [ascii "btcusdt"] = [[66, 84, 67, 85, 83, 68, 84]] := by decide
    rw [oneSymbol, upper]
    exact ⟨by simp, by simp, List.nodup_singleton _⟩
  ubase := ⟨by decide, nofun, List.nodup_nil⟩

/-- A payload with that text, and what the two library functions make of it. -/
def tickerText : Name :=
  ascii "\x7b\"e\":\"bookTicker\",\"E\":1,\"s\":\"BTCUSDT\",\"u\":2,\"T\":1," ++
    ascii "\"a\":\"7\",\"A\":\"7\",\"b\":\"7\",\"B\":\"7\"\x7d"

def parseTicker (data : Name) : Option Json := if data = tickerText then some tickerDoc else none

def seven : Strtod Int := ⟨fun _ => 7, fun _ => false⟩

def tickerMessage : Message := ⟨.SPOT, tickerText, 3, 3⟩

def noPages : Pages Int := ⟨.zeroed, .zeroed, .zeroed, .zeroed⟩

theorem parsed_tickerText : parsed parseTicker tickerMessage.data = tickerDoc := by
  have same : tickerMessage.data = tickerText := rfl
  rw [parsed, parseTicker, if_pos same, Option.getD_some]

theorem tickerMessage_wellFormed :
    tickerMessage.WellFormed seven parseTicker oneSymbol.stores := by
  rw [Message.WellFormed]
  show BinanceMd.WellFormed seven true true (parsed parseTicker tickerMessage.data)
  rw [parsed_tickerText]
  intro _ _
  refine ⟨by decide, by decide, fun _ _ => ⟨by decide, by decide, by decide⟩, ?_⟩
  intro trade
  exact absurd trade (by decide)

def sevens : Bookticker Int := ⟨.SPOT, ascii "BTCUSDT", 2, 3000, 1, 1, 7, 7, 7, 7⟩

theorem tickerMessage_ticker : tickerMessage.ticker? seven parseTicker .SPOT = some sevens := by
  rw [Message.ticker?, parsed_tickerText]
  rfl

theorem tickerMessage_trade : tickerMessage.trade? seven parseTicker .SPOT = none := by
  rw [Message.trade?, parsed_tickerText]
  rfl

end

end RazorCrypto.BinanceMd
