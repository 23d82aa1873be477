import RazorCrypto.Foundation.Tally
import RazorCrypto.BinanceMd.Payload

/-!
# The latency statistics

`g_conn_latency_stats` keeps one `ConnLatencyStats` for each connection. Each market data event
adds its latency, the difference of two clocks in unsigned 64-bit arithmetic: an exchange clock
ahead of the local one makes it wrap. The report moves its entries into a working copy, and the
hand-written move constructor resets what it moves from. The lock is left out here.
-/

namespace RazorCrypto.BinanceMd

open Fallible Shm WrappingTally

/-- `ConnLatencyStats`. -/
structure ConnLatencyStats where
  connId : Int
  productType : Name
  totalCount : UInt64
  totalLatency : UInt64
  latestLatency : UInt64
  minLatency : UInt64
deriving DecidableEq

def UINT64_MAX : UInt64 := 18446744073709551615

namespace ConnLatencyStats

/-- The constructor with parameters. -/
def construct (id : Int) (type : Name) : ConnLatencyStats :=
  { connId := id, productType := type, totalCount := 0, totalLatency := 0, latestLatency := 0,
    minLatency := UINT64_MAX }

/-- What the move constructor leaves of its source. A string that was moved from is empty. -/
def movedFrom : ConnLatencyStats :=
  { connId := -1, productType := [], totalCount := 0, totalLatency := 0, latestLatency := 0,
    minLatency := UINT64_MAX }

/-- The move constructor: the new object and its source. -/
def move (src : ConnLatencyStats) : ConnLatencyStats × ConnLatencyStats := (src, movedFrom)

/-- `get_avg_latency`, as an exact quotient. -/
def getAvgLatency (s : ConnLatencyStats) : Rat :=
  if 0 < s.totalCount then mkRat s.totalLatency.toNat s.totalCount.toNat else 0

/-- The three words that are accumulated. -/
def tally (s : ConnLatencyStats) : Tally := ⟨s.totalCount, s.totalLatency, s.minLatency⟩

end ConnLatencyStats

/-- `g_conn_latency_stats`. -/
abbrev LatencyStats := Int → Option ConnLatencyStats

namespace LatencyStats

/-- `init_conn_stats`. `emplace` leaves an entry that is there. -/
def initConnStats (stats : LatencyStats) (connId : Int) (productType : Name) : LatencyStats :=
  if (stats connId).isSome then stats
  else Function.update stats connId (some (.construct connId productType))

/-- `reset_conn_stats`. -/
def resetConnStats (stats : LatencyStats) (connId : Int) : LatencyStats :=
  match stats connId with
  | some s => Function.update stats connId
      (some { s with totalCount := 0, totalLatency := 0, minLatency := UINT64_MAX })
  | none => stats

/-- `update_latency_stats`. -/
def updateLatencyStats (stats : LatencyStats) (connId : Int) (latency : UInt64) : LatencyStats :=
  match stats connId with
  | some s => Function.update stats connId (some { s with
      totalCount := s.totalCount + 1
      totalLatency := s.totalLatency + latency
      latestLatency := latency
      minLatency := if latency < s.minLatency then latency else s.minLatency })
  | none => stats

/-- `print_product_stats`: the entries of the product are moved into the vector that is sorted
and printed. -/
def printProductStats (stats : LatencyStats) (product : Name) : LatencyStats :=
  fun id => (stats id).map fun s => if s.productType = product then s.move.2 else s

/-- `print_latency_stats`. -/
def printLatencyStats (stats : LatencyStats) : LatencyStats :=
  (stats.printProductStats (ascii "Spot")).printProductStats (ascii "UBase(Future)")

/-! ## Printing -/

/-- A call on the statistics. -/
inductive Op
  | initConnStats (connId : Int) (productType : Name)
  | resetConnStats (connId : Int)
  | updateLatencyStats (connId : Int) (latency : UInt64)
  | printProductStats (product : Name)
  | printLatencyStats

/-- What a call does. -/
def apply (stats : LatencyStats) : Op → LatencyStats
  | .initConnStats connId productType => stats.initConnStats connId productType
  | .resetConnStats connId => stats.resetConnStats connId
  | .updateLatencyStats connId latency => stats.updateLatencyStats connId latency
  | .printProductStats product => stats.printProductStats product
  | .printLatencyStats => stats.printLatencyStats

/-- A call that prints. -/
def Op.prints : Op → Bool
  | .printProductStats _ => true
  | .printLatencyStats => true
  | _ => false

/-- A sequence of calls. -/
def applyAll (stats : LatencyStats) (ops : List Op) : LatencyStats := ops.foldl apply stats

/-- No connection of the product, or only such as nothing is left of. -/
def Without (product : Name) (stats : LatencyStats) : Prop :=
  ∀ id s, stats id = some s → s.productType = product → s = .movedFrom

/-- A call that prints nothing that is there. -/
def Spares (stats : LatencyStats) : Op → Prop
  | .printProductStats product => stats.Without product
  | .printLatencyStats => stats.Without (ascii "Spot") ∧ stats.Without (ascii "UBase(Future)")
  | _ => True

variable {stats : LatencyStats} {product : Name}

theorem printProductStats_of_none {id : Int} (absent : stats id = none) :
    stats.printProductStats product id = none := by
  simp [printProductStats, absent]

theorem printProductStats_of_some {id : Int} {s : ConnLatencyStats} (found : stats id = some s) :
    stats.printProductStats product id =
      some (if s.productType = product then .movedFrom else s) := by
  simp [printProductStats, found, ConnLatencyStats.move]

/-- A report of a product is read-only exactly if it has nothing to print. -/
theorem printProductStats_eq_self_iff :
    stats.printProductStats product = stats ↔ stats.Without product := by
  constructor
  · intro same id s found type
    have unchanged := congrFun same id
    rw [printProductStats_of_some found, if_pos type, found] at unchanged
    exact (Option.some.inj unchanged).symm
  · intro without
    funext id
    cases found : stats id with
    | none => exact printProductStats_of_none found
    | some s =>
        rw [printProductStats_of_some found]
        by_cases type : s.productType = product
        · rw [if_pos type, without id s found type]
        · rw [if_neg type]

/-- The whole report is read-only exactly if neither product has something to print. -/
theorem printLatencyStats_eq_self_iff : stats.printLatencyStats = stats ↔
    stats.Without (ascii "Spot") ∧ stats.Without (ascii "UBase(Future)") := by
  constructor
  · intro same
    have unchanged : ∀ {id s}, stats id = some s →
        s.productType = ascii "Spot" ∨ s.productType = ascii "UBase(Future)" → s = .movedFrom := by
      intro id s found type
      have here := congrFun same id
      obtain spot | future := type
      · have first : stats.printProductStats (ascii "Spot") id = some .movedFrom := by
          rw [printProductStats_of_some found, if_pos spot]
        have other : ConnLatencyStats.movedFrom.productType ≠ ascii "UBase(Future)" := by decide
        rw [printLatencyStats, printProductStats_of_some first, if_neg other, found] at here
        exact (Option.some.inj here).symm
      · have other : s.productType ≠ ascii "Spot" := by
          rw [future]
          decide
        have first : stats.printProductStats (ascii "Spot") id = some s := by
          rw [printProductStats_of_some found, if_neg other]
        rw [printLatencyStats, printProductStats_of_some first, if_pos future, found] at here
        exact (Option.some.inj here).symm
    exact ⟨fun id s found type => unchanged found (Or.inl type),
      fun id s found type => unchanged found (Or.inr type)⟩
  · rintro ⟨spot, future⟩
    have first : stats.printProductStats (ascii "Spot") = stats :=
      printProductStats_eq_self_iff.mpr spot
    rw [printLatencyStats, first]
    exact printProductStats_eq_self_iff.mpr future

theorem apply_eq_self_iff {op : Op} (prints : op.prints = true) :
    stats.apply op = stats ↔ stats.Spares op := by
  cases op with
  | printProductStats product => exact printProductStats_eq_self_iff
  | printLatencyStats => exact printLatencyStats_eq_self_iff
  | _ => cases prints

theorem applyAll_append (stats : LatencyStats) (ops : List Op) (op : Op) :
    stats.applyAll (ops ++ [op]) = (stats.applyAll ops).apply op := by
  rw [applyAll, List.foldl_append]
  rfl

/-- A sequence of calls and its beginnings leave what they leave without their prints exactly
if each print finds nothing to print. -/
theorem applyAll_filter_iff (stats : LatencyStats) (ops : List Op) :
    (∀ done, done <+: ops →
      stats.applyAll done = stats.applyAll (done.filter fun op => !op.prints)) ↔
    ∀ done op, done ++ [op] <+: ops → (stats.applyAll done).Spares op := by
  constructor
  · intro same done op begins
    cases prints : op.prints with
    | false =>
        cases op with
        | printProductStats => cases prints
        | printLatencyStats => cases prints
        | _ => trivial
    | true =>
        have before := same done ((List.prefix_append done [op]).trans begins)
        have after := same (done ++ [op]) begins
        have dropped : (done ++ [op]).filter (fun op => !op.prints) =
            done.filter fun op => !op.prints := by
          simp [prints]
        rw [dropped, ← before, applyAll_append] at after
        exact (apply_eq_self_iff prints).mp after
  · intro spares done
    induction done using List.reverseRecOn with
    | nil => exact fun _ => rfl
    | append_singleton done op ih =>
        intro begins
        have before := ih ((List.prefix_append done [op]).trans begins)
        rw [applyAll_append, List.filter_append]
        cases prints : op.prints with
        | false =>
            have kept : [op].filter (fun op => !op.prints) = [op] := by simp [prints]
            rw [kept, applyAll_append, before]
        | true =>
            have dropped : [op].filter (fun op => !op.prints) = [] := by simp [prints]
            rw [dropped, List.append_nil, ← before]
            exact (apply_eq_self_iff prints).mpr (spares done op begins)

/-- Printing is read-only exactly where there is nothing to print: for a product, for the whole
report, and in any sequence of calls. -/
theorem printing_readOnly_iff (stats : LatencyStats) (ops : List Op) :
    (∀ product, stats.printProductStats product = stats ↔ stats.Without product) ∧
    (stats.printLatencyStats = stats ↔
      stats.Without (ascii "Spot") ∧ stats.Without (ascii "UBase(Future)")) ∧
    ((∀ done, done <+: ops →
        stats.applyAll done = stats.applyAll (done.filter fun op => !op.prints)) ↔
      ∀ done op, done ++ [op] <+: ops → (stats.applyAll done).Spares op) :=
  ⟨fun _ => printProductStats_eq_self_iff, printLatencyStats_eq_self_iff,
    applyAll_filter_iff stats ops⟩

/-- No connection yet. -/
def empty : LatencyStats := fun _ => none

/-- One connection with one message: the report resets it, and loses its number. -/
theorem printing_resets :
    empty.applyAll [.initConnStats 1 (ascii "Spot"), .updateLatencyStats 1 7] 1 =
      some ⟨1, ascii "Spot", 1, 7, 7, 7⟩ ∧
    empty.applyAll [.initConnStats 1 (ascii "Spot"), .updateLatencyStats 1 7,
      .printLatencyStats] 1 = some ⟨-1, [], 0, 0, 0, UINT64_MAX⟩ := by
  decide

end LatencyStats

/-! ## Messages -/

/-- The event time that `process_md_data` takes from a document, if it takes one. -/
def Json.eventTimeMs (doc : Json) : Option UInt64 :=
  match doc.hasEvent, doc.uint64At "E" with
  | .ok true, .ok eventTimeMs => some eventTimeMs
  | _, _ => none

/-- The latency of a message in microseconds, of two clocks in milliseconds. -/
def latencyUs (now eventTimeMs : UInt64) : Int :=
  (now.toNat : Int) * 1000 - (eventTimeMs.toNat : Int) * 1000

/-- The subtraction of `process_md_data` is exact modulo `2 ^ 64`. -/
theorem ofInt_latencyUs (now eventTimeMs : UInt64) :
    UInt64.ofInt (latencyUs now eventTimeMs) = now * 1000 - eventTimeMs * 1000 := by
  have thousand : UInt64.ofInt 1000 = 1000 := rfl
  rw [latencyUs, ofInt_sub, UInt64.ofInt_mul, UInt64.ofInt_mul, ofInt_toNat, ofInt_toNat, thousand]

variable {δ : Type} {parse : Name → Option Json}

/-- A call of `process_md_data` for a connection, with the clock and its two parsers. -/
structure MdCall (δ : Type) where
  connId : Int
  now : UInt64
  data : Name
  bookParser : Json → Except Failure (Option (Update δ))
  aggParser : Json → Except Failure (Option (Update δ))

/-- What happens to the statistics while data comes in. -/
inductive FeedOp (δ : Type)
  | process (call : MdCall δ)
  | reset (connId : Int)
  | init (connId : Int) (productType : Name)

/-- A call that returns, with what it does to the statistics. -/
def LatencyStats.feed (parse : Name → Option Json) (stats : LatencyStats) :
    FeedOp δ → Except Failure LatencyStats
  | .process call => do
    let processed ← processMdData call.now parse call.bookParser call.aggParser call.data
    match processed.latency with
    | some latency => return stats.updateLatencyStats call.connId latency
    | none => return stats
  | .reset connId => .ok (stats.resetConnStats connId)
  | .init connId productType => .ok (stats.initConnStats connId productType)

/-- The latencies of a connection after one more call. -/
def recorded (parse : Name → Option Json) (connId : Int) (latencies : List Int) :
    FeedOp δ → List Int
  | .process call =>
    if call.connId = connId then
      latencies ++ ((parsed parse call.data).eventTimeMs.map (latencyUs call.now)).toList
    else latencies
  | .reset other => if other = connId then [] else latencies
  | .init _ _ => latencies

/-- The exact latencies of the messages of a connection since its last reset. -/
def sinceReset (parse : Name → Option Json) (connId : Int) (ops : List (FeedOp δ)) : List Int :=
  ops.foldl (recorded parse connId) []

/-- The latency that a call of `process_md_data` adds. -/
theorem processMdData_latency {now : UInt64} {data : Name}
    {bookParser aggParser : Json → Except Failure (Option (Update δ))} {processed : Processed δ}
    (returned : processMdData now parse bookParser aggParser data = .ok processed) :
    processed.latency = (parsed parse data).eventTimeMs.map
      fun eventTimeMs => UInt64.ofInt (latencyUs now eventTimeMs) := by
  rw [processMdData] at returned
  dsimp only at returned
  generalize parsed parse data = doc at returned ⊢
  obtain ⟨event, tested, returned⟩ := exists_of_bind returned
  cases event with
  | false =>
      cases returned
      rw [Json.eventTimeMs, tested]
      rfl
  | true =>
      obtain ⟨eventTimeMs, read, returned⟩ := exists_of_bind returned
      obtain ⟨ev, -, returned⟩ := exists_of_bind returned
      have latency : processed.latency = some (now * 1000 - eventTimeMs * 1000) := by
        split at returned
        · obtain ⟨update, -, returned⟩ := exists_of_bind returned
          cases returned
          rfl
        · split at returned
          · obtain ⟨update, -, returned⟩ := exists_of_bind returned
            cases returned
            rfl
          · cases returned
            rfl
      rw [latency, ← ofInt_latencyUs, Json.eventTimeMs, tested, read]
      rfl

/-! ## What the statistics say -/

namespace LatencyStats

variable {stats stats' : LatencyStats} {connId other : Int} {latencies : List Int}

theorem initConnStats_of_ne (ne : connId ≠ other) (productType : Name) :
    stats.initConnStats other productType connId = stats connId := by
  rw [initConnStats]
  split
  · rfl
  · exact Function.update_of_ne ne ..

theorem resetConnStats_of_ne (ne : connId ≠ other) :
    stats.resetConnStats other connId = stats connId := by
  rw [resetConnStats]
  cases stats other with
  | none => rfl
  | some s => exact Function.update_of_ne ne ..

theorem updateLatencyStats_of_ne (ne : connId ≠ other) (latency : UInt64) :
    stats.updateLatencyStats other latency connId = stats connId := by
  rw [updateLatencyStats]
  cases stats other with
  | none => rfl
  | some s => exact Function.update_of_ne ne ..

/-- The entry of a connection is the tally of these latencies. -/
def Tallied (stats : LatencyStats) (connId : Int) (latencies : List Int) : Prop :=
  ∃ s, stats connId = some s ∧ s.tally = tally latencies

theorem tallied_initConnStats (fresh : stats connId = none) (productType : Name) :
    (stats.initConnStats connId productType).Tallied connId [] := by
  refine ⟨.construct connId productType, ?_, rfl⟩
  rw [initConnStats, fresh]
  exact Function.update_self ..

namespace Tallied

theorem of_eq (h : stats.Tallied connId latencies) (same : stats' connId = stats connId) :
    stats'.Tallied connId latencies := by
  obtain ⟨s, found, words⟩ := h
  exact ⟨s, same.trans found, words⟩

theorem initConnStats (h : stats.Tallied connId latencies) (other : Int) (productType : Name) :
    (stats.initConnStats other productType).Tallied connId latencies := by
  apply h.of_eq
  by_cases same : connId = other
  · subst same
    obtain ⟨s, found, -⟩ := h
    simp [LatencyStats.initConnStats, found]
  · exact initConnStats_of_ne same productType

theorem resetConnStats (h : stats.Tallied connId latencies) :
    (stats.resetConnStats connId).Tallied connId [] := by
  obtain ⟨s, found, -⟩ := h
  refine ⟨{ s with totalCount := 0, totalLatency := 0, minLatency := UINT64_MAX }, ?_, rfl⟩
  rw [LatencyStats.resetConnStats, found]
  exact Function.update_self ..

theorem updateLatencyStats (h : stats.Tallied connId latencies) (latency : Int) :
    (stats.updateLatencyStats connId (UInt64.ofInt latency)).Tallied connId
      (latencies ++ [latency]) := by
  obtain ⟨s, found, words⟩ := h
  rw [Tallied, tally_append, ← words, LatencyStats.updateLatencyStats, found]
  exact ⟨_, Function.update_self .., rfl⟩

/-- One call, of this or of another connection. -/
theorem feed (h : stats.Tallied connId latencies) {op : FeedOp δ}
    (returned : stats.feed parse op = .ok stats') :
    stats'.Tallied connId (recorded parse connId latencies op) := by
  cases op with
  | process call =>
      obtain ⟨processed, run, returned⟩ := exists_of_bind returned
      rw [processMdData_latency run] at returned
      cases time : (parsed parse call.data).eventTimeMs with
      | none =>
          rw [time] at returned
          cases returned
          simpa [recorded, time] using h
      | some eventTimeMs =>
          rw [time] at returned
          cases returned
          by_cases own : call.connId = connId
          · subst own
            simpa [recorded, time] using h.updateLatencyStats _
          · simpa [recorded, own] using h.of_eq (updateLatencyStats_of_ne (Ne.symm own) _)
  | reset other =>
      cases returned
      by_cases own : other = connId
      · subst own
        simpa [recorded] using h.resetConnStats
      · simpa [recorded, own] using h.of_eq (resetConnStats_of_ne (Ne.symm own))
  | init other productType =>
      cases returned
      exact h.initConnStats other productType

theorem feedAll (h : stats.Tallied connId latencies) {ops : List (FeedOp δ)}
    (returned : ops.foldlM (LatencyStats.feed parse) stats = .ok stats') :
    stats'.Tallied connId (ops.foldl (recorded parse connId) latencies) := by
  induction ops generalizing stats latencies with
  | nil =>
      cases returned
      exact h
  | cons op ops ih =>
      rw [List.foldlM_cons] at returned
      obtain ⟨next, first, rest⟩ := exists_of_bind returned
      exact ih (h.feed first) rest

end Tallied

/-- After `init_conn_stats` and any calls, the count, the minimum and the average of a
connection are exact precisely if since the last reset no message came from an exchange clock
ahead of the local one, and neither their number nor the sum of their latencies overflows. -/
theorem latency_exact_iff (parse : Name → Option Json) {stats stats' : LatencyStats} {connId : Int}
    (fresh : stats connId = none) (productType : Name) {ops : List (FeedOp δ)}
    (returned : ops.foldlM (feed parse) (stats.initConnStats connId productType) = .ok stats') :
    ∃ s, stats' connId = some s ∧
      ((s.totalCount.toNat = (sinceReset parse connId ops).length ∧
        (0 < s.totalCount →
          ((s.minLatency.toNat : Int) ∈ sinceReset parse connId ops ∧
            ∀ d ∈ sinceReset parse connId ops, (s.minLatency.toNat : Int) ≤ d) ∧
          s.getAvgLatency =
            mkRat (sinceReset parse connId ops).sum (sinceReset parse connId ops).length)) ↔
      (sinceReset parse connId ops).length < 18446744073709551616 ∧
        (∀ d ∈ sinceReset parse connId ops, 0 ≤ d) ∧
        (sinceReset parse connId ops).sum < 18446744073709551616) := by
  obtain ⟨s, found, words⟩ := (tallied_initConnStats fresh productType).feedAll returned
  change s.tally = tally (sinceReset parse connId ops) at words
  refine ⟨s, found, ?_⟩
  rw [← tally_exact_iff, ← words]
  have average : 0 < s.totalCount →
      s.getAvgLatency = mkRat s.totalLatency.toNat s.totalCount.toNat := fun pos => if_pos pos
  constructor
  · rintro ⟨count, rest⟩
    exact ⟨count, fun pos => (rest pos).1, fun pos => (average pos).symm.trans (rest pos).2⟩
  · intro exact
    exact ⟨exact.count, fun pos => ⟨exact.least pos, (average pos).trans (exact.mean pos)⟩⟩

end LatencyStats

/-- A parser that makes an event with this time of any payload. -/
def eventAt (time : UInt64) (_ : Name) : Option Json :=
  some (.object [(ascii "e", .string (ascii "trade")), (ascii "E", .uint64 time)])

/-- A message for connection 1 at this local time. -/
def messageAt (now : UInt64) : FeedOp Unit :=
  .process ⟨1, now, [], fun _ => .ok none, fun _ => .ok none⟩

/-- A message 4 milliseconds old, a reset, and three that are 2, 1 and 3 milliseconds old. -/
def fourMessages : List (FeedOp Unit) :=
  [messageAt 9, .reset 1, messageAt 7, messageAt 6, messageAt 8]

theorem latency_exact_one : ∃ stats' s,
    fourMessages.foldlM (LatencyStats.feed (eventAt 5))
      (LatencyStats.empty.initConnStats 1 (ascii "Spot")) = .ok stats' ∧
    stats' 1 = some s ∧ s.totalCount.toNat = 3 ∧ s.getAvgLatency = mkRat 6000 3 := by
  obtain ⟨stats', returned⟩ : ∃ stats', fourMessages.foldlM (LatencyStats.feed (eventAt 5))
      (LatencyStats.empty.initConnStats 1 (ascii "Spot")) = .ok stats' := ⟨_, rfl⟩
  obtain ⟨s, found, exact⟩ := LatencyStats.latency_exact_iff (eventAt 5) rfl (ascii "Spot") returned
  have latencies : sinceReset (eventAt 5) 1 fourMessages = [2000, 1000, 3000] := by decide +kernel
  rw [latencies] at exact
  obtain ⟨count, rest⟩ := exact.mpr (by decide)
  have pos : 0 < s.totalCount := by
    rw [UInt64.lt_iff_toNat_lt, count]
    decide
  exact ⟨stats', s, returned, found, count, (rest pos).2⟩

/-- One message from an exchange clock one millisecond ahead: the minimum wraps. -/
theorem latency_wraps : ∃ stats' s,
    [messageAt 5].foldlM (LatencyStats.feed (eventAt 6))
      (LatencyStats.empty.initConnStats 1 (ascii "Spot")) = .ok stats' ∧
    stats' 1 = some s ∧ sinceReset (eventAt 6) 1 [messageAt 5] = [-1000] ∧
    s.minLatency = 18446744073709550616 := by
  obtain ⟨stats', returned⟩ : ∃ stats', [messageAt 5].foldlM (LatencyStats.feed (eventAt 6))
      (LatencyStats.empty.initConnStats 1 (ascii "Spot")) = .ok stats' := ⟨_, rfl⟩
  have latencies : sinceReset (eventAt 6) 1 [messageAt 5] = [-1000] := by decide +kernel
  have fresh : (LatencyStats.empty.initConnStats 1 (ascii "Spot")).Tallied 1 [] :=
    LatencyStats.tallied_initConnStats rfl (ascii "Spot")
  obtain ⟨s, found, words⟩ := fresh.feedAll returned
  change s.tally = tally (sinceReset (eventAt 6) 1 [messageAt 5]) at words
  rw [latencies] at words
  have least : s.minLatency = (tally [-1000]).least := congrArg Tally.least words
  exact ⟨stats', s, returned, found, latencies, least.trans (by decide +kernel)⟩

end RazorCrypto.BinanceMd
