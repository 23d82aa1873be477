import RazorCrypto.Foundation.Fallible
import RazorCrypto.Shm.Name

/-!
# What a payload can do to the feed handler

`on_read` hands each payload to a handler, which parses it and reads members of the document.
The accessors of rapidjson assert what they need: an object, a member, a type. `std::stod`
throws. Nothing catches either of them, so that the process ends.

The parser is a parameter, of which only the documented behaviour counts: a payload that is no
JSON text leaves the document as it was, `null`.
-/

namespace RazorCrypto.BinanceMd

open Fallible Shm

/-- What can keep a handler from returning. -/
inductive Failure
  | assertion
  | invalidArgument
  | outOfRange
deriving DecidableEq

/-- A rapidjson value. A number is a `uint64_t` or one that `GetUint64` refuses. -/
inductive Json
  | null
  | bool (b : Bool)
  | uint64 (n : UInt64)
  | otherNumber
  | string (s : Name)
  | array (elements : List Json)
  | object (members : List (Name × Json))

/-- The bytes of an ASCII literal. -/
def ascii (s : String) : Name := s.toList.map fun c => c.toNat.toUInt8

namespace Json

/-- `IsObject`. -/
def isObject : Json → Bool
  | object _ => true
  | _ => false

/-- The first member of this name. -/
def member? (name : Name) : Json → Option Json
  | object members => (members.find? fun m => m.1 = name).map Prod.snd
  | _ => none

/-- `FindMember`, which asserts `IsObject`. -/
def findMember (v : Json) (name : Name) : Except Failure (Option Json) :=
  if v.isObject then .ok (v.member? name) else .error .assertion

/-- `HasMember`. -/
def hasMember (v : Json) (name : Name) : Except Failure Bool := do
  let found ← v.findMember name
  return found.isSome

/-- `operator[]`, which asserts that the member exists. -/
def item (v : Json) (name : Name) : Except Failure Json := do
  match ← v.findMember name with
  | some m => return m
  | none => .error .assertion

/-- `GetString`: the C string that its result points to. -/
def getString : Json → Except Failure Name
  | string s => .ok (cStr s)
  | _ => .error .assertion

/-- `GetUint64`. -/
def getUint64 : Json → Except Failure UInt64
  | uint64 n => .ok n
  | _ => .error .assertion

/-- `GetBool`. -/
def getBool : Json → Except Failure Bool
  | bool b => .ok b
  | _ => .error .assertion

end Json

/-! ## `std::stod` -/

/-- `isspace`. -/
def isSpace (c : UInt8) : Bool := c == 32 || (9 ≤ c && c ≤ 13)

/-- `isdigit`. -/
def isDigit (c : UInt8) : Bool := 48 ≤ c && c ≤ 57

/-- `tolower`. -/
def toLower (c : UInt8) : UInt8 := if 65 ≤ c && c ≤ 90 then c + 32 else c

/-- What a number may start with behind its sign: a digit, a point with a digit, or the name of
an infinity or of a NaN. -/
def startsUnsigned : Name → Bool
  | c :: rest =>
    isDigit c || (c == 46 && rest.head?.any isDigit) ||
      ((c :: rest).take 3).map toLower == ascii "inf" ||
      ((c :: rest).take 3).map toLower == ascii "nan"
  | [] => false

/-- `strtod` finds a number at the start of a string. -/
def startsWithNumber (str : Name) : Bool :=
  match str.dropWhile isSpace with
  | c :: rest => if c == 43 || c == 45 then startsUnsigned rest else startsUnsigned (c :: rest)
  | [] => false

example : startsWithNumber (ascii "25.35190000") = true := by decide
example : startsWithNumber (ascii " -.5e3x") = true := by decide
example : startsWithNumber (ascii "") = false := by decide

/-- The number that `strtod` makes of a string that starts with one, and whether it sets
`ERANGE` because the number does not fit in a `double`. -/
structure Strtod (δ : Type) where
  value : Name → δ
  erange : Name → Bool

/-- `std::stod`. -/
def stod {δ : Type} (strtod : Strtod δ) (str : Name) : Except Failure δ :=
  if startsWithNumber str then
    if strtod.erange str then .error .outOfRange else .ok (strtod.value str)
  else .error .invalidArgument

/-! ## The handlers -/

/-- The members of `ProductType` that the module uses. -/
inductive ProductType
  | SPOT
  | UMARGIN
deriving DecidableEq

/-- `Bookticker`, without the order counts, which no parser sets. -/
structure Bookticker (δ : Type) where
  mType : ProductType
  mSymbol : Name
  mUpdateId : UInt64
  mLocalTimeUs : UInt64
  mEventTimestamp : UInt64
  mTradeTimestamp : UInt64
  mAskPrice : δ
  mAskVol : δ
  mBidPrice : δ
  mBidVol : δ

/-- `AggTrade`, without the trade count, which no parser sets. -/
structure AggTrade (δ : Type) where
  mType : ProductType
  mSymbol : Name
  mAggTradeId : UInt64
  mFirstTradeId : UInt64
  mLastTradeId : UInt64
  mPrice : δ
  mVol : δ
  mIsBuy : Bool
  mEventTimestamp : UInt64
  mTradeTimestamp : UInt64
  mLocalTimeUs : UInt64

/-- What a parser passes to `on_rtn_data` of its store. -/
inductive Update (δ : Type)
  | bookticker (ticker : Bookticker δ)
  | aggTrade (agg : AggTrade δ)

/-- Which stores the module was configured with. -/
structure Stores where
  mSpotBboShm : Bool
  mSpotAggShm : Bool
  mFutUbaseBboShm : Bool
  mFutUbaseAggShm : Bool

variable {δ : Type} (strtod : Strtod δ) (now : UInt64)

/-- `doc[name].GetUint64()`. -/
def Json.uint64At (doc : Json) (name : String) : Except Failure UInt64 :=
  doc.item (ascii name) >>= Json.getUint64

/-- `doc[name].GetString()`. -/
def Json.stringAt (doc : Json) (name : String) : Except Failure Name :=
  doc.item (ascii name) >>= Json.getString

/-- `doc[name].GetBool()`. -/
def Json.boolAt (doc : Json) (name : String) : Except Failure Bool :=
  doc.item (ascii name) >>= Json.getBool

/-- `std::stod(doc[name].GetString())`. -/
def Json.numberAt (doc : Json) (name : String) : Except Failure δ :=
  doc.stringAt name >>= stod strtod

/-- `fill_bookticker_data` on a ticker of this type, at a time in milliseconds. -/
def fillBooktickerData (type : ProductType) (doc : Json) : Except Failure (Bookticker δ) := do
  let symbol ← doc.stringAt "s"
  let updateId ← doc.uint64At "u"
  let eventTimestamp ← doc.uint64At "E"
  let tradeTimestamp ← doc.uint64At "T"
  let askPrice ← doc.numberAt strtod "a"
  let askVol ← doc.numberAt strtod "A"
  let bidPrice ← doc.numberAt strtod "b"
  let bidVol ← doc.numberAt strtod "B"
  return ⟨type, symbol.take 31, updateId, now * 1000, eventTimestamp, tradeTimestamp, askPrice,
    askVol, bidPrice, bidVol⟩

/-- `fill_aggtrade_data` on a trade of this type. -/
def fillAggtradeData (type : ProductType) (doc : Json) : Except Failure (AggTrade δ) := do
  let symbol ← doc.stringAt "s"
  let aggTradeId ← doc.uint64At "a"
  let firstTradeId ← doc.uint64At "f"
  let lastTradeId ← doc.uint64At "l"
  let price ← doc.numberAt strtod "p"
  let vol ← doc.numberAt strtod "q"
  let isBuy ← doc.boolAt "m"
  let eventTimestamp ← doc.uint64At "E"
  let tradeTimestamp ← doc.uint64At "T"
  return ⟨type, symbol.take 31, aggTradeId, firstTradeId, lastTradeId, price, vol, isBuy,
    eventTimestamp, tradeTimestamp, now * 1000⟩

/-- A `bookTicker` parser: nothing is done without its store. -/
def parseBookTicker (shm : Bool) (type : ProductType) (doc : Json) :
    Except Failure (Option (Update δ)) :=
  if shm then do
    let ticker ← fillBooktickerData strtod now type doc
    return some (.bookticker ticker)
  else .ok none

/-- An `aggTrade` parser. -/
def parseAggtrade (shm : Bool) (type : ProductType) (doc : Json) :
    Except Failure (Option (Update δ)) :=
  if shm then do
    let agg ← fillAggtradeData strtod now type doc
    return some (.aggTrade agg)
  else .ok none

def parseSpotBookTicker (stores : Stores) : Json → Except Failure (Option (Update δ)) :=
  parseBookTicker strtod now stores.mSpotBboShm .SPOT

def parseSpotAggtrade (stores : Stores) : Json → Except Failure (Option (Update δ)) :=
  parseAggtrade strtod now stores.mSpotAggShm .SPOT

def parseUbaseBookTicker (stores : Stores) : Json → Except Failure (Option (Update δ)) :=
  parseBookTicker strtod now stores.mFutUbaseBboShm .UMARGIN

def parseUbaseAggtrade (stores : Stores) : Json → Except Failure (Option (Update δ)) :=
  parseAggtrade strtod now stores.mFutUbaseAggShm .UMARGIN

/-- A document after `Parse`: what the parser makes of the bytes, or `null` as before. -/
def parsed (parse : Name → Option Json) (data : Name) : Json := (parse data).getD .null

/-- `on_spot_md`. Its two branches print the payload. -/
def onSpotMd (parse : Name → Option Json) (data : Name) : Except Failure Bool := do
  let doc := parsed parse data
  if ← doc.hasMember (ascii "u") then return true else return true

/-- `on_ubase_md`. -/
def onUbaseMd (_data : Name) : Except Failure Bool := .ok true

/-- The test of `process_md_data`: an object with both members. -/
def Json.hasEvent (doc : Json) : Except Failure Bool := do
  if !doc.isObject then return false
  if !(← doc.hasMember (ascii "e")) then return false
  doc.hasMember (ascii "E")

/-- What `process_md_data` returns, the latency it adds to the statistics, and the update that
its parser passes on. -/
structure Processed (δ : Type) where
  returned : Bool
  latency : Option UInt64
  update : Option (Update δ)

/-- `process_md_data`. -/
def processMdData (parse : Name → Option Json) (bookParser aggParser :
    Json → Except Failure (Option (Update δ))) (data : Name) : Except Failure (Processed δ) := do
  let doc := parsed parse data
  if !(← doc.hasEvent) then return ⟨false, none, none⟩
  let eventTimeMs ← doc.uint64At "E"
  let latency := now * 1000 - eventTimeMs * 1000
  let ev ← doc.stringAt "e"
  if ev = ascii "bookTicker" then
    let update ← bookParser doc
    return ⟨true, some latency, update⟩
  else if ev = ascii "aggTrade" then
    let update ← aggParser doc
    return ⟨true, some latency, update⟩
  else return ⟨true, some latency, none⟩

/-! ## What an accessor needs -/

namespace Json

/-- `IsString`. -/
def isString : Json → Bool
  | string _ => true
  | _ => false

/-- `IsUint64`. -/
def isUint64 : Json → Bool
  | uint64 _ => true
  | _ => false

/-- `IsBool`. -/
def isBool : Json → Bool
  | bool _ => true
  | _ => false

/-- The string with this text, up to its first zero byte. -/
def isText (text : String) : Json → Bool
  | string s => cStr s == ascii text
  | _ => false

/-- A string that `std::stod` accepts. -/
def isNumeral : Json → Bool
  | string s => startsWithNumber (cStr s) && !strtod.erange (cStr s)
  | _ => false

/-- The document has a member of this name that satisfies `p`. -/
def has (doc : Json) (name : String) (p : Json → Bool) : Bool := (doc.member? (ascii name)).any p

variable {doc : Json} {name : String} {α : Type}

theorem member?_eq_none (other : doc.isObject = false) (name : Name) : doc.member? name = none := by
  cases doc with
  | object members => cases other
  | _ => rfl

theorem item_eq (doc : Json) (name : Name) : doc.item name =
    match doc.member? name with
    | some m => .ok m
    | none => .error .assertion := by
  rw [item, findMember]
  cases kind : doc.isObject with
  | true => cases doc.member? name <;> rfl
  | false =>
      rw [member?_eq_none kind]
      rfl

/-- An access to a member returns exactly if the member exists and allows it. -/
theorem returns_item_bind {f : Json → Except Failure α} {p : Json → Bool}
    (allows : ∀ m, Returns (f m) ↔ p m = true) :
    Returns (doc.item (ascii name) >>= f) ↔ doc.has name p = true := by
  rw [item_eq, has]
  cases doc.member? (ascii name) with
  | some m => exact allows m
  | none => exact iff_of_false nofun nofun

theorem returns_uint64At : Returns (doc.uint64At name) ↔ doc.has name isUint64 = true :=
  returns_item_bind fun m => by cases m <;> simp [getUint64, isUint64]

theorem returns_stringAt : Returns (doc.stringAt name) ↔ doc.has name isString = true :=
  returns_item_bind fun m => by cases m <;> simp [getString, isString]

theorem returns_boolAt : Returns (doc.boolAt name) ↔ doc.has name isBool = true :=
  returns_item_bind fun m => by cases m <;> simp [getBool, isBool]

theorem returns_stod (str : Name) : Returns (stod strtod str) ↔
    (startsWithNumber str && !strtod.erange str) = true := by
  rw [stod]
  cases startsWithNumber str <;> cases strtod.erange str <;> simp

theorem returns_numberAt :
    Returns (doc.numberAt strtod name) ↔ doc.has name (isNumeral strtod) = true := by
  rw [numberAt, stringAt, bind_assoc]
  refine returns_item_bind fun m => ?_
  cases m with
  | string s => exact returns_stod strtod (cStr s)
  | _ => exact iff_of_false nofun nofun

end Json

/-- The members that `fill_bookticker_data` reads. -/
def BookFields (doc : Json) : Prop :=
  doc.has "s" Json.isString = true ∧
    (∀ name ∈ ["u", "E", "T"], doc.has name Json.isUint64 = true) ∧
    ∀ name ∈ ["a", "A", "b", "B"], doc.has name (Json.isNumeral strtod) = true

/-- The members that `fill_aggtrade_data` reads. -/
def AggFields (doc : Json) : Prop :=
  doc.has "s" Json.isString = true ∧
    (∀ name ∈ ["a", "f", "l", "E", "T"], doc.has name Json.isUint64 = true) ∧
    (∀ name ∈ ["p", "q"], doc.has name (Json.isNumeral strtod) = true) ∧
    doc.has "m" Json.isBool = true

theorem returns_fillBooktickerData (type : ProductType) (doc : Json) :
    Returns (fillBooktickerData strtod now type doc) ↔ BookFields strtod doc := by
  refine (returns_bind_const fun _ => returns_bind_const fun _ => returns_bind_const fun _ =>
    returns_bind_const fun _ => returns_bind_const fun _ => returns_bind_const fun _ =>
    returns_bind_const fun _ => returns_bind_const fun _ =>
    iff_of_true (returns_pure _) trivial).trans ?_
  simp only [Json.returns_stringAt, Json.returns_uint64At, Json.returns_numberAt]
  simp [BookFields, and_assoc]

theorem returns_fillAggtradeData (type : ProductType) (doc : Json) :
    Returns (fillAggtradeData strtod now type doc) ↔ AggFields strtod doc := by
  refine (returns_bind_const fun _ => returns_bind_const fun _ => returns_bind_const fun _ =>
    returns_bind_const fun _ => returns_bind_const fun _ => returns_bind_const fun _ =>
    returns_bind_const fun _ => returns_bind_const fun _ => returns_bind_const fun _ =>
    iff_of_true (returns_pure _) trivial).trans ?_
  simp only [Json.returns_stringAt, Json.returns_uint64At, Json.returns_numberAt,
    Json.returns_boolAt]
  simp [AggFields, and_assoc]
  tauto

theorem returns_parseBookTicker (shm : Bool) (type : ProductType) (doc : Json) :
    Returns (parseBookTicker strtod now shm type doc) ↔ (shm = true → BookFields strtod doc) := by
  cases shm with
  | false => simp [parseBookTicker]
  | true =>
      refine returns_bind_pure.trans ?_
      simp [returns_fillBooktickerData]

theorem returns_parseAggtrade (shm : Bool) (type : ProductType) (doc : Json) :
    Returns (parseAggtrade strtod now shm type doc) ↔ (shm = true → AggFields strtod doc) := by
  cases shm with
  | false => simp [parseAggtrade]
  | true =>
      refine returns_bind_pure.trans ?_
      simp [returns_fillAggtradeData]

/-! ## The handlers -/

/-- What an event must be for the parsers of a product, if it has the two members that
`process_md_data` looks for. -/
def WellFormed (bbo agg : Bool) (doc : Json) : Prop :=
  doc.has "e" (fun _ => true) = true → doc.has "E" (fun _ => true) = true →
    doc.has "E" Json.isUint64 = true ∧ doc.has "e" Json.isString = true ∧
      (doc.has "e" (Json.isText "bookTicker") = true → bbo = true → BookFields strtod doc) ∧
      (doc.has "e" (Json.isText "aggTrade") = true → agg = true → AggFields strtod doc)

theorem returns_onSpotMd (parse : Name → Option Json) (data : Name) :
    Returns (onSpotMd parse data) ↔ (parsed parse data).isObject = true := by
  rw [onSpotMd, Json.hasMember, Json.findMember]
  cases (parsed parse data).isObject with
  | false => exact iff_of_false nofun nofun
  | true =>
      refine iff_of_true ?_ rfl
      cases (parsed parse data).member? (ascii "u") <;> exact returns_pure _

/-- The test of `process_md_data` never fails. -/
theorem Json.hasEvent_eq (doc : Json) : doc.hasEvent =
    .ok (doc.has "e" (fun _ => true) && doc.has "E" (fun _ => true)) := by
  rw [hasEvent, hasMember, hasMember, findMember, findMember, has, has]
  cases kind : doc.isObject with
  | false =>
      rw [member?_eq_none kind]
      rfl
  | true =>
      cases doc.member? (ascii "e") <;> cases doc.member? (ascii "E") <;> rfl

theorem Json.has_isText {doc : Json} {name text : String} {s : Name}
    (read : doc.stringAt name = .ok s) :
    doc.has name (isText text) = true ↔ s = ascii text := by
  rw [stringAt, item_eq] at read
  rw [has]
  cases found : doc.member? (ascii name) with
  | none =>
      rw [found] at read
      cases read
  | some m =>
      rw [found] at read
      cases m with
      | string s' =>
          cases read
          exact beq_iff_eq
      | _ => cases read

theorem returns_processMdData (parse : Name → Option Json) (now' : UInt64) (bbo agg : Bool)
    (type : ProductType) (data : Name) :
    Returns (processMdData now parse (parseBookTicker strtod now' bbo type)
      (parseAggtrade strtod now' agg type) data) ↔
      WellFormed strtod bbo agg (parsed parse data) := by
  rw [processMdData]
  dsimp only
  generalize parsed parse data = doc
  rw [returns_bind_iff, Json.hasEvent_eq, WellFormed]
  simp only [Except.ok.injEq, exists_eq_left']
  cases doc.has "e" (fun _ => true) with
  | false => exact iff_of_true (returns_pure _) nofun
  | true =>
    cases doc.has "E" (fun _ => true) with
    | false => exact iff_of_true (returns_pure _) (fun _ => nofun)
    | true =>
      simp only [Bool.and_self, Bool.not_true, Bool.false_eq_true, if_false, forall_const]
      refine (returns_bind_const fun eventTimeMs => ?_).trans
        (and_congr_left' Json.returns_uint64At)
      rw [returns_bind_iff, ← Json.returns_stringAt]
      have distinct : ascii "aggTrade" ≠ ascii "bookTicker" := by decide
      -- The text of `e` decides which parser runs.
      constructor
      · rintro ⟨ev, read, rest⟩
        rw [returns_ite_iff, returns_ite_iff, returns_bind_pure, returns_bind_pure] at rest
        rw [Json.has_isText read, Json.has_isText read, ← returns_parseBookTicker strtod now',
          ← returns_parseAggtrade strtod now']
        exact ⟨⟨ev, read⟩, rest.1, fun trade => (rest.2 (trade ▸ distinct)).1 trade⟩
      · rintro ⟨⟨ev, read⟩, book, trade⟩
        rw [Json.has_isText read, ← returns_parseBookTicker strtod now' _ type] at book
        rw [Json.has_isText read, ← returns_parseAggtrade strtod now' _ type] at trade
        refine ⟨ev, read, ?_⟩
        rw [returns_ite_iff, returns_ite_iff, returns_bind_pure, returns_bind_pure]
        exact ⟨book, fun _ => ⟨trade, fun _ => returns_pure _⟩⟩

/-- For every payload: `on_spot_md`, `on_ubase_md` and `process_md_data` with the parsers of either
product return exactly if the payload is an object that is well-formed for both products. -/
theorem handlers_return_iff (parse : Name → Option Json) (now' : UInt64) (stores : Stores)
    (data : Name) :
    (Returns (onSpotMd parse data) ∧ Returns (onUbaseMd data) ∧
      Returns (processMdData now parse (parseSpotBookTicker strtod now' stores)
        (parseSpotAggtrade strtod now' stores) data) ∧
      Returns (processMdData now parse (parseUbaseBookTicker strtod now' stores)
        (parseUbaseAggtrade strtod now' stores) data)) ↔
      (parsed parse data).isObject = true ∧
        WellFormed strtod stores.mSpotBboShm stores.mSpotAggShm (parsed parse data) ∧
        WellFormed strtod stores.mFutUbaseBboShm stores.mFutUbaseAggShm (parsed parse data) := by
  have spot := returns_processMdData strtod now parse now' stores.mSpotBboShm stores.mSpotAggShm
    .SPOT data
  have ubase := returns_processMdData strtod now parse now' stores.mFutUbaseBboShm
    stores.mFutUbaseAggShm .UMARGIN data
  have always : Returns (onUbaseMd data) := returns_ok true
  exact and_congr (returns_onSpotMd parse data)
    ((and_iff_right always).trans (and_congr spot ubase))

/-- A payload that is no JSON text ends the process in `on_spot_md`. -/
theorem onSpotMd_fails : onSpotMd (fun _ => none) (ascii "pong") = .error .assertion := rfl

end RazorCrypto.BinanceMd
