import RazorCrypto.Foundation.Fallible
import RazorCrypto.Foundation.JsonText
import RazorCrypto.BinanceMd.Payload

/-!
# The configuration of the module

`parse_config` reads the members of a document that it knows, each with a default for a member
that is absent or of another type. The first member of a name counts, and a string ends at a zero
character. The only thing that can go wrong is a document that is no object.

What is printed on the way is left out, and the base class, which reads other members.
-/

namespace RazorCrypto.BinanceMd

open Fallible JsonText

/-! ## Members -/

/-- `IsObject`. -/
def isObject : Value → Bool
  | .object _ => true
  | _ => false

/-- `IsString` and `GetString`: the C string that its result points to. -/
def string? : Value → Option String
  | .string s => some (String.ofList (s.takeWhile (· ≠ Char.ofNat 0)))
  | _ => none

/-- `IsArray` and `GetArray`. -/
def array? : Value → Option (List Value)
  | .array elements => some elements
  | _ => none

/-- `IsObject` and the object. -/
def object? (v : Value) : Option Value := if isObject v then some v else none

/-- A numeral without fraction and exponent. -/
def integer? (literal : List Char) : Option Int :=
  match literal with
  | '-' :: digits =>
    if digits.all Char.isDigit then some (-(Nat.ofDigitChars 10 digits 0)) else none
  | digits => if digits.all Char.isDigit then some (Nat.ofDigitChars 10 digits 0) else none

/-- `IsInt` and `GetInt`. -/
def int? : Value → Option Int
  | .number literal => if isNumber literal then
      (integer? literal).filter fun n => -2147483648 ≤ n ∧ n < 2147483648
    else none
  | _ => none

example : int? (.number "3".toList) = some 3 := by decide
example : int? (.number "-1e2".toList) = none := by decide
example : int? (.number "2147483648".toList) = none := by decide

/-- `FindMember`, which asserts `IsObject`. -/
def findMember (name : String) : Value → Except Failure (Option Value)
  | .object members => .ok ((members.find? fun m => m.1 = name.toList).map Prod.snd)
  | _ => .error .assertion

/-- `HasMember`, then `operator[]` with a test of the type. -/
def member? {α : Type} (get : Value → Option α) (name : String) (v : Value) :
    Except Failure (Option α) := do
  let found ← findMember name v
  return found.bind get

/-- A member that has a default. -/
def memberOr {α : Type} (get : Value → Option α) (name : String) (fallback : α) (v : Value) :
    Except Failure α := do
  let found ← member? get name v
  return found.getD fallback

/-! ## `parse_config` -/

/-- What `parse_config` sets. -/
structure Settings where
  spotSymbols : List String
  mSpotConnCount : Int
  spotBboShmName : String
  spotAggtradeShmName : String
  ubaseSymbols : List String
  mUbaseConnCount : Int
  futBboShmName : String
  futAggtradeShmName : String
  mdSize : Int
  mLatencyIntervalMs : Int
deriving DecidableEq

/-- The members before `parse_config`. -/
def Settings.initial : Settings := ⟨[], 1, "", "", [], 1, "", "", 100000, 5000⟩

/-- What a part of the document says about a product. -/
structure Part where
  symbols : List String
  connCount : Int
  bboShmName : String
  aggtradeShmName : String

/-- The four members of a part, two with names of their own and two with defaults of their own. -/
def readPart (symbols connCount bboFallback aggtradeFallback : String) (part : Value) :
    Except Failure Part := do
  let symbols ← memberOr array? symbols [] part
  let connCount ← memberOr int? connCount 1 part
  let bboShmName ← memberOr string? "bbo_shm_name" bboFallback part
  let aggtradeShmName ← memberOr string? "aggtrade_shm_name" aggtradeFallback part
  return ⟨symbols.filterMap string?, connCount, bboShmName, aggtradeShmName⟩

/-- The part about the spot market. -/
def parseSpot (s : Settings) (spot : Value) : Except Failure Settings := do
  let part ← readPart "symbols" "conn_count" "spot_bbo" "spot_aggtrade" spot
  return { s with
    spotSymbols := s.spotSymbols ++ part.symbols
    mSpotConnCount := part.connCount
    spotBboShmName := part.bboShmName
    spotAggtradeShmName := part.aggtradeShmName }

/-- The part about the futures. -/
def parseFutures (s : Settings) (fut : Value) : Except Failure Settings := do
  let part ← readPart "ubase_symbols" "ubase_conn_count" "future_ubase_bbo" "future_ubase_agg" fut
  return { s with
    ubaseSymbols := s.ubaseSymbols ++ part.symbols
    mUbaseConnCount := part.connCount
    futBboShmName := part.bboShmName
    futAggtradeShmName := part.aggtradeShmName }

/-- A part that is there if its member is an object. -/
def parsePart (parse : Settings → Value → Except Failure Settings) (name : String) (doc : Value)
    (s : Settings) : Except Failure Settings := do
  match ← member? object? name doc with
  | some part => parse s part
  | none => return s

/-- `parse_config`. -/
def parseConfig (doc : Value) : Except Failure Settings := do
  let s ← parsePart parseSpot "spot" doc .initial
  let s ← parsePart parseFutures "futures" doc s
  let mdSize ← memberOr int? "md_size" 100000 doc
  let latencyIntervalMs ← memberOr int? "latency_print_interval_ms" 5000 doc
  return { s with mdSize := mdSize, mLatencyIntervalMs := latencyIntervalMs }

variable {doc v : Value} {s settings : Settings} {α : Type} {name : String}

/-! ## What can go wrong -/

theorem returns_findMember : Returns (findMember name v) ↔ isObject v = true := by
  cases v with
  | object members => exact iff_of_true (returns_ok _) rfl
  | _ => exact iff_of_false (not_returns_error _) Bool.false_ne_true

theorem returns_member? {get : Value → Option α} :
    Returns (member? get name v) ↔ isObject v = true := by
  rw [member?, returns_bind_pure, returns_findMember]

theorem returns_memberOr {get : Value → Option α} {fallback : α} :
    Returns (memberOr get name fallback v) ↔ isObject v = true := by
  rw [memberOr, returns_bind_pure, returns_member?]

theorem isObject_of_object? {part : Value} (found : object? v = some part) :
    isObject part = true := by
  rw [object?] at found
  split at found
  · next object => cases found; exact object
  · cases found

/-- A part goes through in any object, and is only tried in one. -/
theorem returns_parsePart {parse : Settings → Value → Except Failure Settings}
    (returns : ∀ s v, isObject v = true → Returns (parse s v)) :
    Returns (parsePart parse name doc s) ↔ isObject doc = true := by
  rw [parsePart, returns_bind_iff]
  constructor
  · rintro ⟨found, member, -⟩
    exact returns_member?.mp ⟨found, member⟩
  · intro object
    obtain ⟨found, member⟩ := returns_member?.mpr object
    refine ⟨found, member, ?_⟩
    cases found with
    | none => exact returns_pure _
    | some part =>
        obtain ⟨inner, -, same⟩ := exists_of_bind member
        obtain ⟨v, -, found⟩ := Option.bind_eq_some_iff.mp (Except.ok.inj same)
        exact returns s part (isObject_of_object? found)

theorem returns_readPart {symbols connCount bboFallback aggtradeFallback : String} :
    Returns (readPart symbols connCount bboFallback aggtradeFallback v) ↔ isObject v = true := by
  refine (returns_bind_const fun _ => returns_bind_const fun _ => returns_bind_const fun _ =>
    returns_bind_pure).trans ?_
  simp [returns_memberOr]

theorem returns_parseSpot : Returns (parseSpot s v) ↔ isObject v = true := by
  rw [parseSpot, returns_bind_pure, returns_readPart]

theorem returns_parseFutures : Returns (parseFutures s v) ↔ isObject v = true := by
  rw [parseFutures, returns_bind_pure, returns_readPart]

/-- `parse_config` returns exactly for an object. -/
theorem returns_parseConfig : Returns (parseConfig doc) ↔ isObject doc = true := by
  refine (returns_bind_const (p := isObject doc = true) fun s => ?_).trans ?_
  · refine (returns_bind_const fun _ => returns_bind_const fun _ => returns_bind_pure).trans ?_
    rw [returns_parsePart fun _ _ => returns_parseFutures.mpr, returns_memberOr, returns_memberOr]
    simp
  · rw [returns_parsePart fun _ _ => returns_parseSpot.mpr, and_self]

/-! ## Documents for the settings -/

/-- The number of an `int`. -/
def number (n : Int) : Value := .number (toString n).toList

def string (s : String) : Value := .string s.toList

/-- A part, with the two names of its own. -/
def Part.document (symbols connCount : String) (part : Part) : Value := .object [
  (symbols.toList, .array (part.symbols.map string)),
  (connCount.toList, number part.connCount),
  ("bbo_shm_name".toList, string part.bboShmName),
  ("aggtrade_shm_name".toList, string part.aggtradeShmName)]

def Settings.spot (s : Settings) : Part :=
  ⟨s.spotSymbols, s.mSpotConnCount, s.spotBboShmName, s.spotAggtradeShmName⟩

def Settings.futures (s : Settings) : Part :=
  ⟨s.ubaseSymbols, s.mUbaseConnCount, s.futBboShmName, s.futAggtradeShmName⟩

/-- The document that says all of the settings. -/
def Settings.document (s : Settings) : Value := .object [
  ("spot".toList, s.spot.document "symbols" "conn_count"),
  ("futures".toList, s.futures.document "ubase_symbols" "ubase_conn_count"),
  ("md_size".toList, number s.mdSize),
  ("latency_print_interval_ms".toList, number s.mLatencyIntervalMs)]

/-- A value of an `int`. -/
def IsInt (n : Int) : Prop := -2147483648 ≤ n ∧ n < 2147483648

/-- A C string. -/
def IsCString (s : String) : Prop := ∀ c ∈ s.toList, c ≠ Char.ofNat 0

/-- A part with values of their types. -/
structure Part.Valid (part : Part) : Prop where
  symbols : ∀ symbol ∈ part.symbols, IsCString symbol
  connCount : IsInt part.connCount
  bboShmName : IsCString part.bboShmName
  aggtradeShmName : IsCString part.aggtradeShmName

structure Settings.Valid (s : Settings) : Prop where
  spot : s.spot.Valid
  futures : s.futures.Valid
  mdSize : IsInt s.mdSize
  mLatencyIntervalMs : IsInt s.mLatencyIntervalMs

theorem string?_of_isCString {str : String} (valid : IsCString str) :
    string? (string str) = some str := by
  have all : str.toList.takeWhile (· ≠ Char.ofNat 0) = str.toList :=
    List.takeWhile_eq_self_iff.mpr fun c inside => decide_eq_true (valid c inside)
  rw [string, string?, all, String.ofList_toList]

theorem filterMap_string? {symbols : List String} (valid : ∀ symbol ∈ symbols, IsCString symbol) :
    (symbols.map string).filterMap string? = symbols := by
  induction symbols with
  | nil => rfl
  | cons symbol symbols ih =>
      obtain ⟨head, tail⟩ := List.forall_mem_cons.mp valid
      rw [List.map_cons, List.filterMap_cons, string?_of_isCString head, ih tail]

theorem integer?_toString (n : Int) : integer? (toString n).toList = some n := by
  have all (m : Nat) : (Nat.toDigits 10 m).all Char.isDigit = true :=
    List.all_eq_true.mpr (isDigit_toDigits m)
  rw [Int.toString_eq_repr, Int.repr_eq_if]
  split
  · rw [Nat.toList_repr]
    unfold integer?
    split
    · -- no digit is a minus sign
      next digits minus =>
        have digit := all n.toNat
        rw [minus] at digit
        simp at digit
    · rw [if_pos (all _), Nat.ofDigitChars_ten_toDigits]
      congr 1
      omega
  · have minus : "-".toList = ['-'] := by decide
    rw [String.toList_append, Nat.toList_repr, minus, List.singleton_append]
    simp only [integer?]
    rw [if_pos (all _), Nat.ofDigitChars_ten_toDigits]
    congr 1
    omega

theorem int?_number {n : Int} (valid : IsInt n) : int? (number n) = some n := by
  rw [number, int?, if_pos (isNumber_toString n).1, integer?_toString]
  exact Option.filter_some_pos (decide_eq_true valid)

/-- Where no name comes twice, each member is found. -/
theorem findMember_of_mem {members : List (List Char × Value)} {m : Value}
    (distinct : (members.map Prod.fst).Nodup) (inside : (name.toList, m) ∈ members) :
    findMember name (.object members) = .ok (some m) := by
  have found : (members.find? fun m => m.1 = name.toList) = some (name.toList, m) := by
    induction members with
    | nil => cases inside
    | cons first members ih =>
        obtain ⟨absent, distinct⟩ := List.nodup_cons.mp distinct
        obtain rfl | later := List.mem_cons.mp inside
        · simp
        · have other : first.1 ≠ name.toList := by
            rintro same
            exact absent (same ▸ List.mem_map_of_mem later)
          rw [List.find?_cons_of_neg (by simpa using other)]
          exact ih distinct later
  rw [findMember, found]
  rfl

theorem memberOr_of_mem {members : List (List Char × Value)} {get : Value → Option α}
    {fallback a : α} {m : Value} (distinct : (members.map Prod.fst).Nodup)
    (inside : (name.toList, m) ∈ members) (got : get m = some a) :
    memberOr get name fallback (.object members) = .ok a := by
  rw [memberOr, member?, findMember_of_mem distinct inside]
  exact congrArg (fun o => Except.ok (Option.getD o fallback)) got

/-- A part is read back if its names differ. -/
theorem readPart_document {symbols connCount : String} (bboFallback aggtradeFallback : String)
    {part : Part} (valid : part.Valid) (distinct : [symbols.toList, connCount.toList,
      "bbo_shm_name".toList, "aggtrade_shm_name".toList].Nodup) :
    readPart symbols connCount bboFallback aggtradeFallback (part.document symbols connCount) =
      .ok part := by
  have array : memberOr array? symbols [] (part.document symbols connCount) =
      .ok (part.symbols.map string) := memberOr_of_mem distinct (.head _) rfl
  have count : memberOr int? connCount 1 (part.document symbols connCount) =
      .ok part.connCount :=
    memberOr_of_mem distinct (.tail _ (.head _)) (int?_number valid.connCount)
  have bbo : memberOr string? "bbo_shm_name" bboFallback (part.document symbols connCount) =
      .ok part.bboShmName :=
    memberOr_of_mem distinct (.tail _ (.tail _ (.head _))) (string?_of_isCString valid.bboShmName)
  have agg : memberOr string? "aggtrade_shm_name" aggtradeFallback
      (part.document symbols connCount) = .ok part.aggtradeShmName :=
    memberOr_of_mem distinct (.tail _ (.tail _ (.tail _ (.head _))))
      (string?_of_isCString valid.aggtradeShmName)
  rw [readPart, array, count, bbo, agg]
  simp only [bind, Except.bind, filterMap_string? valid.symbols]
  rfl

/-- Each choice of settings has a document. -/
theorem parseConfig_document (valid : settings.Valid) :
    parseConfig settings.document = .ok settings := by
  have spot : parsePart parseSpot "spot" settings.document .initial =
      parseSpot .initial (settings.spot.document "symbols" "conn_count") := rfl
  have futures : ∀ s, parsePart parseFutures "futures" settings.document s =
      parseFutures s (settings.futures.document "ubase_symbols" "ubase_conn_count") := fun _ => rfl
  have spotPart := readPart_document "spot_bbo" "spot_aggtrade" valid.spot
    (show ["symbols".toList, "conn_count".toList, _, _].Nodup by decide)
  have futuresPart := readPart_document "future_ubase_bbo" "future_ubase_agg" valid.futures
    (show ["ubase_symbols".toList, "ubase_conn_count".toList, _, _].Nodup by decide)
  have names : ["spot".toList, "futures".toList, "md_size".toList,
      "latency_print_interval_ms".toList].Nodup := by decide
  have mdSize : memberOr int? "md_size" 100000 settings.document = .ok settings.mdSize :=
    memberOr_of_mem names (.tail _ (.tail _ (.head _))) (int?_number valid.mdSize)
  have latency : memberOr int? "latency_print_interval_ms" 5000 settings.document =
      .ok settings.mLatencyIntervalMs :=
    memberOr_of_mem names (.tail _ (.tail _ (.tail _ (.head _))))
      (int?_number valid.mLatencyIntervalMs)
  rw [parseConfig, spot, parseSpot, spotPart]
  simp only [bind, Except.bind, pure, Except.pure, futures, parseFutures, futuresPart, mdSize,
    latency]
  rfl

end RazorCrypto.BinanceMd
