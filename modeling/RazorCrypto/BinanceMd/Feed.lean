import RazorCrypto.BinanceMd.Payload
import RazorCrypto.Shm.Plus.Serving

/-!
# From payloads to readers

`init_shm` opens a store for the tickers and one for the trades of each product that has symbols,
in the constructor and once more before the connections are made. `process_md_data` parses a
payload and passes what it says to `on_rtn_data` of one of the four stores. They have room for
the configured symbols only, and no call compares.

No function of the module calls `process_md_data`: the callbacks of the connections print. The
symbols and the number of slots are those that `parse_config` read, and the four names of the
shared memory are taken to differ.
-/

namespace RazorCrypto.BinanceMd

open Fallible MachineInt Shm ShmMdPlus

/-! ## Symbols -/

/-- `toupper`. -/
def toUpper (c : UInt8) : UInt8 := if 97 ≤ c && c ≤ 122 then c - 32 else c

/-- `to_uppercase`. -/
def toUppercase (str : Name) : Name := str.map toUpper

/-- `vector_upper`. -/
def vectorUpper (input : List Name) : List Name := input.map toUppercase

example : vectorUpper [ascii "btcusdt", ascii "1INCHusdt"] = [ascii "BTCUSDT", ascii "1INCHUSDT"] :=
  by decide

/-- What `parse_config` sets of the members that `init_shm` reads. -/
structure Config where
  spotSymbols : List Name
  ubaseSymbols : List Name
  mdSize : Int

/-! ## Stores -/

section
variable {δ : Type} [Zero δ]

/-- `sizeof(Bookticker)` is 112. -/
instance : MarketData (Bookticker δ) where
  zero := ⟨.SPOT, [], 0, 0, 0, 0, 0, 0, 0, 0⟩
  size := 112

/-- `sizeof(AggTrade)` is 112. -/
instance : MarketData (AggTrade δ) where
  zero := ⟨.SPOT, [], 0, 0, 0, 0, 0, false, 0, 0, 0⟩
  size := 112

end

/-- The four stores of the module, which are null until `init_shm` opens them. -/
structure Feed (δ : Type) where
  mSpotBboShm : Option (ShmMdPlus (Bookticker δ))
  mSpotAggShm : Option (ShmMdPlus (AggTrade δ))
  mFutUbaseBboShm : Option (ShmMdPlus (Bookticker δ))
  mFutUbaseAggShm : Option (ShmMdPlus (AggTrade δ))

/-- The memory that `load_page_buffer` returns for the four names. -/
structure Pages (δ : Type) where
  spotBbo : Region (Bookticker δ)
  spotAgg : Region (AggTrade δ)
  ubaseBbo : Region (Bookticker δ)
  ubaseAgg : Region (AggTrade δ)

/-- A new store, after `create_shm_ptr` and a writing `set_shm_addr`. -/
def openStore {α : Type} [MarketData α] (page : Region α) (upper : List Name) (mdSize : Int) :
    ShmMdPlus α :=
  ((new page).createShmPtr page (asUInt32 upper.length) (asUInt32 mdSize)).setShmAddr upper true

namespace Feed

variable {δ : Type}

/-- The stores of a new object. -/
def constructed : Feed δ := ⟨none, none, none, none⟩

variable [Zero δ]

/-- `init_shm`. -/
def initShm (feed : Feed δ) (config : Config) (pages : Pages δ) : Feed δ :=
  let upperSpot := vectorUpper config.spotSymbols
  let upperUbase := vectorUpper config.ubaseSymbols
  let feed := if config.spotSymbols.isEmpty then feed else { feed with
    mSpotBboShm := some (openStore pages.spotBbo upperSpot config.mdSize)
    mSpotAggShm := some (openStore pages.spotAgg upperSpot config.mdSize) }
  if config.ubaseSymbols.isEmpty then feed else { feed with
    mFutUbaseBboShm := some (openStore pages.ubaseBbo upperUbase config.mdSize)
    mFutUbaseAggShm := some (openStore pages.ubaseAgg upperUbase config.mdSize) }

/-- The stores before the first payload: the constructor and the runner call `init_shm`. -/
def started (config : Config) (pages pages' : Pages δ) : Feed δ :=
  (constructed.initShm config pages).initShm config pages'

omit [Zero δ] in
/-- Which stores are not null. -/
def stores (feed : Feed δ) : Stores :=
  ⟨feed.mSpotBboShm.isSome, feed.mSpotAggShm.isSome, feed.mFutUbaseBboShm.isSome,
    feed.mFutUbaseAggShm.isSome⟩

end Feed

/-! ## Payloads -/

/-- A call of `process_md_data` with the parsers of a product, and the times in milliseconds that
it and the parser read. -/
structure Message where
  product : ProductType
  data : Name
  now : UInt64
  fillNow : UInt64

/-- `on_rtn_data` of a store that is not null. -/
def offer {α : Type} [MarketData α] (shm : Option (ShmMdPlus α)) (symbol : Name) (newData : α) :
    Option (ShmMdPlus α) :=
  shm.map fun s => (s.onRtnData symbol newData none).1

variable {δ : Type} [Zero δ] (strtod : Strtod δ) (parse : Name → Option Json)

namespace Feed

/-- The end of a parser: the update goes to its store. -/
def passOn (feed : Feed δ) : ProductType → Update δ → Feed δ
  | .SPOT, .bookticker ticker =>
    { feed with mSpotBboShm := offer feed.mSpotBboShm ticker.mSymbol ticker }
  | .SPOT, .aggTrade agg =>
    { feed with mSpotAggShm := offer feed.mSpotAggShm agg.mSymbol agg }
  | .UMARGIN, .bookticker ticker =>
    { feed with mFutUbaseBboShm := offer feed.mFutUbaseBboShm ticker.mSymbol ticker }
  | .UMARGIN, .aggTrade agg =>
    { feed with mFutUbaseAggShm := offer feed.mFutUbaseAggShm agg.mSymbol agg }

omit [Zero δ] in
/-- What `process_md_data` makes of a payload with the parsers of its product. -/
def processed (feed : Feed δ) (m : Message) : Except Failure (Processed δ) :=
  match m.product with
  | .SPOT => processMdData m.now parse (parseSpotBookTicker strtod m.fillNow feed.stores)
      (parseSpotAggtrade strtod m.fillNow feed.stores) m.data
  | .UMARGIN => processMdData m.now parse (parseUbaseBookTicker strtod m.fillNow feed.stores)
      (parseUbaseAggtrade strtod m.fillNow feed.stores) m.data

/-- One call of `process_md_data`. -/
def process (feed : Feed δ) (m : Message) : Except Failure (Feed δ) := do
  let result ← feed.processed strtod parse m
  return result.update.elim feed (feed.passOn m.product)

/-- A sequence of calls. -/
def run (feed : Feed δ) (messages : List Message) : Except Failure (Feed δ) :=
  messages.foldlM (process strtod parse) feed

end Feed

/-! ## What the payloads say -/

section
omit [Zero δ]

/-- An event of this kind. -/
def Json.isEvent (doc : Json) (kind : String) : Bool :=
  doc.has "e" (Json.isText kind) && doc.has "E" fun _ => true

/-- The ticker that a payload says. -/
def Message.ticker? (product : ProductType) (m : Message) : Option (Bookticker δ) :=
  if m.product = product ∧ (parsed parse m.data).isEvent "bookTicker" = true then
    (fillBooktickerData strtod m.fillNow product (parsed parse m.data)).toOption
  else none

/-- The trade that a payload says. -/
def Message.trade? (product : ProductType) (m : Message) : Option (AggTrade δ) :=
  if m.product = product ∧ (parsed parse m.data).isEvent "aggTrade" = true then
    (fillAggtradeData strtod m.fillNow product (parsed parse m.data)).toOption
  else none

/-- The tickers of a product, each under the hash of its symbol. -/
def tickers (product : ProductType) (messages : List Message) :
    List (UInt64 × Bookticker δ) :=
  (messages.filterMap (Message.ticker? strtod parse product)).map fun ticker =>
    (comHash (cStr ticker.mSymbol), ticker)

/-- The trades of a product, each under the hash of its symbol. -/
def trades (product : ProductType) (messages : List Message) : List (UInt64 × AggTrade δ) :=
  (messages.filterMap (Message.trade? strtod parse product)).map fun agg =>
    (comHash (cStr agg.mSymbol), agg)

variable {strtod parse}

theorem Json.isEvent_of_stringAt {doc : Json} {ev : Name} (read : doc.stringAt "e" = .ok ev)
    (stamped : doc.has "E" (fun _ => true) = true) (kind : String) :
    doc.isEvent kind = decide (ev = ascii kind) := by
  rw [isEvent, stamped, Bool.and_true, Bool.eq_iff_iff, Json.has_isText read, decide_eq_true_iff]

/-- Without the two members that `process_md_data` looks for, a payload says nothing. -/
theorem Json.isEvent_of_not_hasEvent {doc : Json}
    (other : (doc.has "e" (fun _ => true) && doc.has "E" fun _ => true) = false) (kind : String) :
    doc.isEvent kind = false := by
  rw [isEvent]
  cases stamped : doc.has "E" fun _ => true with
  | false => exact Bool.and_false _
  | true =>
      rw [stamped, Bool.and_true, has] at other
      rw [Bool.and_true, has]
      cases found : doc.member? (ascii "e") with
      | none => rfl
      | some m =>
          rw [found] at other
          cases other

theorem parseBookTicker_eq_ok {now : UInt64} {shm : Bool} {type : ProductType} {doc : Json}
    {update : Option (Update δ)} (parsed : parseBookTicker strtod now shm type doc = .ok update) :
    update =
      if shm then (fillBooktickerData strtod now type doc).toOption.map .bookticker else none := by
  cases shm with
  | false =>
      cases parsed
      rfl
  | true =>
      obtain ⟨ticker, filled, last⟩ := exists_of_bind parsed
      cases last
      rw [filled]
      rfl

theorem parseAggtrade_eq_ok {now : UInt64} {shm : Bool} {type : ProductType} {doc : Json}
    {update : Option (Update δ)} (parsed : parseAggtrade strtod now shm type doc = .ok update) :
    update =
      if shm then (fillAggtradeData strtod now type doc).toOption.map .aggTrade else none := by
  cases shm with
  | false =>
      cases parsed
      rfl
  | true =>
      obtain ⟨agg, filled, last⟩ := exists_of_bind parsed
      cases last
      rw [filled]
      rfl

/-- The update that a call passes on: that of a ticker or a trade whose store is there. -/
theorem update_of_processMdData {now now' : UInt64} {bbo agg : Bool} {type : ProductType}
    {data : Name} {doc : Json} {result : Processed δ} (payload : parsed parse data = doc)
    (returned : processMdData now parse (parseBookTicker strtod now' bbo type)
      (parseAggtrade strtod now' agg type) data = .ok result) :
    result.update =
      if doc.isEvent "bookTicker" then
        if bbo then (fillBooktickerData strtod now' type doc).toOption.map .bookticker else none
      else if doc.isEvent "aggTrade" then
        if agg then (fillAggtradeData strtod now' type doc).toOption.map .aggTrade else none
      else none := by
  rw [processMdData] at returned
  dsimp only at returned
  rw [payload, Json.hasEvent_eq] at returned
  obtain ⟨event, test, returned⟩ := exists_of_bind returned
  cases event with
  | false =>
      cases returned
      have other := Except.ok.inj test
      rw [Json.isEvent_of_not_hasEvent other, Json.isEvent_of_not_hasEvent other]
      rfl
  | true =>
      have stamped := (Bool.and_eq_true_iff.mp (Except.ok.inj test)).2
      obtain ⟨eventTimeMs, -, returned⟩ := exists_of_bind returned
      obtain ⟨ev, read, returned⟩ := exists_of_bind returned
      simp only [Json.isEvent_of_stringAt read stamped, decide_eq_true_eq]
      split at returned
      · next book =>
          obtain ⟨update, passed, last⟩ := exists_of_bind returned
          cases last
          rw [if_pos book]
          exact parseBookTicker_eq_ok passed
      · next other =>
          rw [if_neg other]
          split at returned
          · next trade =>
              obtain ⟨update, passed, last⟩ := exists_of_bind returned
              cases last
              rw [if_pos trade]
              exact parseAggtrade_eq_ok passed
          · next neither =>
              cases returned
              rw [if_neg neither]

theorem Json.not_isEvent_of_isEvent {doc : Json} {kind kind' : String}
    (event : doc.isEvent kind = true) (ne : ascii kind ≠ ascii kind') :
    doc.isEvent kind' = false := by
  rw [isEvent, has] at event ⊢
  cases found : doc.member? (ascii "e") with
  | none => rfl
  | some m =>
      rw [found] at event
      cases m with
      | string s =>
          have text : cStr s = ascii kind := beq_iff_eq.mp (Bool.and_eq_true_iff.mp event).1
          refine Bool.and_eq_false_imp.mpr fun text' => absurd ?_ ne
          exact text.symm.trans (beq_iff_eq.mp text')
      | _ => rfl

variable {product : ProductType} {m : Message}

theorem Message.ticker?_of_ne (ne : m.product ≠ product) :
    m.ticker? strtod parse product = none :=
  if_neg fun both => ne both.1

theorem Message.trade?_of_ne (ne : m.product ≠ product) : m.trade? strtod parse product = none :=
  if_neg fun both => ne both.1

theorem tickers_concat (messages : List Message) (m : Message) :
    tickers strtod parse product (messages ++ [m]) = tickers strtod parse product messages ++
      ((m.ticker? strtod parse product).map fun ticker =>
        (comHash (cStr ticker.mSymbol), ticker)).toList := by
  rw [tickers, tickers, List.filterMap_append, List.map_append, List.filterMap_cons]
  cases m.ticker? strtod parse product <;> rfl

theorem trades_concat (messages : List Message) (m : Message) :
    trades strtod parse product (messages ++ [m]) = trades strtod parse product messages ++
      ((m.trade? strtod parse product).map fun agg =>
        (comHash (cStr agg.mSymbol), agg)).toList := by
  rw [trades, trades, List.filterMap_append, List.map_append, List.filterMap_cons]
  cases m.trade? strtod parse product <;> rfl

end

/-! ## One call -/

/-- What a store makes of a payload that may say something for it. -/
def take {α : Type} [MarketData α] (shm : Option (ShmMdPlus α)) (symbol : α → Name)
    (said : Option α) : Option (ShmMdPlus α) :=
  said.elim shm fun newData => offer shm (symbol newData) newData

section
variable {strtod : Strtod δ} {parse : Name → Option Json} {feed feed' : Feed δ} {m : Message}

omit [Zero δ] in
/-- A payload says at most one thing, and it is passed on if its store is there. -/
theorem update_eq {product : ProductType} {bbo agg : Bool} {result : Processed δ}
    (same : m.product = product)
    (returned : processMdData m.now parse (parseBookTicker strtod m.fillNow bbo product)
      (parseAggtrade strtod m.fillNow agg product) m.data = .ok result) :
    (m.trade? strtod parse product = none ∧ result.update =
        if bbo then (m.ticker? strtod parse product).map .bookticker else none) ∨
      m.ticker? strtod parse product = none ∧ result.update =
        if agg then (m.trade? strtod parse product).map .aggTrade else none := by
  rw [update_of_processMdData rfl returned, Message.ticker?, Message.trade?]
  cases book : (parsed parse m.data).isEvent "bookTicker" with
  | true =>
      rw [Json.not_isEvent_of_isEvent book (by decide)]
      exact .inl (by simp [same])
  | false =>
      refine .inr ⟨by simp, ?_⟩
      cases (parsed parse m.data).isEvent "aggTrade" <;> simp [same]

/-- A call hands each store what the payload says for it. -/
theorem process_eq (returned : feed.process strtod parse m = .ok feed') : feed' =
    { mSpotBboShm := take feed.mSpotBboShm (·.mSymbol) (m.ticker? strtod parse .SPOT)
      mSpotAggShm := take feed.mSpotAggShm (·.mSymbol) (m.trade? strtod parse .SPOT)
      mFutUbaseBboShm := take feed.mFutUbaseBboShm (·.mSymbol) (m.ticker? strtod parse .UMARGIN)
      mFutUbaseAggShm :=
        take feed.mFutUbaseAggShm (·.mSymbol) (m.trade? strtod parse .UMARGIN) } := by
  obtain ⟨result, processed, last⟩ := exists_of_bind returned
  cases last
  obtain ⟨bbo, agg, bbo', agg'⟩ := feed
  rw [Feed.processed] at processed
  cases product : m.product with
  | SPOT =>
      rw [product] at processed
      have other : m.product ≠ .UMARGIN := by rw [product]; decide
      rw [Message.ticker?_of_ne other, Message.trade?_of_ne other]
      obtain ⟨silent, update⟩ | ⟨silent, update⟩ := update_eq product processed
      · rw [silent, update]
        cases m.ticker? strtod parse .SPOT <;> cases bbo <;> rfl
      · rw [silent, update]
        cases m.trade? strtod parse .SPOT <;> cases agg <;> rfl
  | UMARGIN =>
      rw [product] at processed
      have other : m.product ≠ .SPOT := by rw [product]; decide
      rw [Message.ticker?_of_ne other, Message.trade?_of_ne other]
      obtain ⟨silent, update⟩ | ⟨silent, update⟩ := update_eq product processed
      · rw [silent, update]
        cases m.ticker? strtod parse .UMARGIN <;> cases bbo' <;> rfl
      · rw [silent, update]
        cases m.trade? strtod parse .UMARGIN <;> cases agg' <;> rfl

end

end RazorCrypto.BinanceMd
