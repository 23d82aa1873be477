import RazorCrypto.BinanceMd.Subscription
import RazorCrypto.Foundation.JsonText

/-!
# The subscriptions as JSON texts

`build_subscribe_msg` puts the symbols between quotation marks as they are. A reader of the
message gets what was meant exactly if none of the characters needs an escape.
-/

namespace RazorCrypto.BinanceMd

open JsonText

/-- The request that a subscription is meant to be. -/
def request (symbols : List String) (suffix : String) (connId : Int) : Value :=
  .object [("method".toList, .string "SUBSCRIBE".toList),
    ("id".toList, .number (toString connId).toList),
    ("params".toList, .array (symbols.map fun symbol => .string (symbol ++ suffix).toList))]

variable {symbols : List String} {suffix : String} {connId : Int}

/-- The strings of a subscription. -/
def params (symbols : List String) (suffix : String) : List (List Char) :=
  symbols.map fun symbol => (symbol ++ suffix).toList

theorem toList_foldl_appendParam (symbols : List String) (n : Nat) (text : String) :
    ((symbols.zipIdx (n + 1)).foldl (appendParam suffix) text).toList =
      text.toList ++ (params symbols suffix).flatMap fun s => ',' :: quoted s := by
  induction symbols generalizing n text with
  | nil => simp [params]
  | cons symbol symbols ih =>
      rw [List.zipIdx_cons, List.foldl_cons, ih]
      have quotes : "\"".toList = [quote] := by decide
      have comma : ",".toList = [','] := by decide
      simp [appendParam, params, quoted, quotes, comma]

/-- The text of the array of parameters. -/
theorem toList_params (symbols : List String) (suffix : String) :
    (symbols.zipIdx.foldl (appendParam suffix) "[").toList =
      '[' :: quotedList (params symbols suffix) := by
  have bracket : "[".toList = ['['] := by decide
  cases symbols with
  | nil => exact bracket
  | cons symbol symbols =>
      have quotes : "\"".toList = [quote] := by decide
      rw [List.zipIdx_cons, List.foldl_cons, toList_foldl_appendParam]
      simp [appendParam, params, quotedList, quoted, quotes, bracket]

/-- The parts of the message. -/
theorem toList_buildSubscribeMsg (symbols : List String) (suffix : String) (connId : Int) :
    (buildSubscribeMsg symbols suffix connId).toList =
      Char.ofNat 123 :: (quoted "method".toList ++ ':' :: (quoted "SUBSCRIBE".toList ++
        ',' :: (quoted "id".toList ++ ':' :: ((toString connId).toList ++
        ',' :: (quoted "params".toList ++ ':' :: '[' :: (quotedList (params symbols suffix) ++
        [']', Char.ofNat 125])))))) := by
  have first : "\x7b\"method\":\"SUBSCRIBE\",\"id\":".toList =
      Char.ofNat 123 :: (quoted "method".toList ++ ':' :: (quoted "SUBSCRIBE".toList ++
        ',' :: (quoted "id".toList ++ [':']))) := by decide
  have second : ",\"params\":".toList = ',' :: (quoted "params".toList ++ [':']) := by decide
  have bracket : "]".toList = [']'] := by decide
  have brace : "\x7d".toList = [Char.ofNat 125] := by decide
  unfold buildSubscribeMsg
  simp only [String.toList_append, toList_params, first, second, bracket, brace]
  simp

/-- The reader gets to the array of parameters, and from there to the end. -/
theorem read_buildSubscribeMsg (symbols : List String) (suffix : String) (connId : Int) :
    ∃ fuel, symbols.length + 1 < fuel ∧
      read (buildSubscribeMsg symbols suffix connId).toList =
        (readValue (fuel + 1) ('[' :: (quotedList (params symbols suffix) ++
          [']', Char.ofNat 125]))).bind fun found =>
        (readBehind (fuel + 1) "params".toList found).bind fun last =>
          if (skip last.2).isEmpty then
            some (.object (("method".toList, .string "SUBSCRIBE".toList) ::
              ("id".toList, .number (toString connId).toList) :: last.1)) else none := by
  obtain ⟨number, digits⟩ := isNumber_toString connId
  have plain : ∀ c ∈ "SUBSCRIBE".toList, Plain c := by simp [Plain, quote, backslash]
  have method : ∀ c ∈ "method".toList, Plain c := by simp [Plain, quote, backslash]
  have id_ : ∀ c ∈ "id".toList, Plain c := by simp [Plain, quote, backslash]
  have params_ : ∀ c ∈ "params".toList, Plain c := by simp [Plain, quote, backslash]
  rw [toList_buildSubscribeMsg]
  unfold JsonText.read
  obtain ⟨fuel, enough, length⟩ : ∃ fuel, symbols.length + 1 < fuel ∧
      (Char.ofNat 123 :: (quoted "method".toList ++ ':' :: (quoted "SUBSCRIBE".toList ++
        ',' :: (quoted "id".toList ++ ':' :: ((toString connId).toList ++
        ',' :: (quoted "params".toList ++ ':' :: '[' :: (quotedList (params symbols suffix) ++
        [']', Char.ofNat 125]))))))).length = fuel + 4 := by
    have least := length_le_quotedList (params symbols suffix)
    rw [params, List.length_map] at least
    refine ⟨_ - 4, ?_, (Nat.sub_add_cancel ?_).symm⟩
    · simp [quoted, params] at least ⊢
      omega
    · simp [quoted]
  refine ⟨fuel, enough, ?_⟩
  rw [length]
  rw [show quoted "method".toList = quote :: ("method".toList ++ [quote]) from rfl,
    List.cons_append, readValue_object (by decide) (by decide), ← List.cons_append,
    show quote :: ("method".toList ++ [quote]) = quoted "method".toList from rfl,
    readMembers_quoted method, readValue_quoted plain, Option.bind_some, readBehind_comma,
    readMembers_quoted id_, readValue_number number digits (by decide), Option.bind_some,
    readBehind_comma, readMembers_quoted params_]
  simp only [Option.bind_eq_bind, Option.bind_assoc, Option.bind_some]

/-- A reader of the message gets what was meant exactly if all characters are plain. -/
theorem read_buildSubscribeMsg_iff (symbols : List String) (suffix : String) (connId : Int) :
    read (buildSubscribeMsg symbols suffix connId).toList =
        some (request symbols suffix connId) ↔
      ∀ symbol ∈ symbols, ∀ c ∈ (symbol ++ suffix).toList, Plain c := by
  obtain ⟨fuel, enough, text⟩ := read_buildSubscribeMsg symbols suffix connId
  rw [text]
  cases symbols with
  | nil =>
      refine iff_of_true ?_ nofun
      show ((readValue (fuel + 1) ('[' :: ']' :: [Char.ofNat 125])).bind _) = _
      rw [readValue_array_empty]
      rfl
  | cons symbol symbols =>
      have strings : (∀ s ∈ params (symbol :: symbols) suffix, ∀ c ∈ s, Plain c) ↔
          ∀ t ∈ symbol :: symbols, ∀ c ∈ (t ++ suffix).toList, Plain c := by
        simp only [params, List.forall_mem_map]
      have values : (symbol :: symbols).map (fun t => Value.string (t ++ suffix).toList) =
          (params (symbol :: symbols) suffix).map .string := by
        simp [params]
      rw [← strings, request, values]
      obtain ⟨first, list, shape, enough⟩ : ∃ first list,
          params (symbol :: symbols) suffix = first :: list ∧ list.length + 1 < fuel := by
        refine ⟨_, _, rfl, ?_⟩
        simp only [List.length_cons, List.length_map] at enough ⊢
        omega
      rw [shape]
      -- the first thing in the array is a quotation mark
      have array : readValue (fuel + 1) ('[' :: (quotedList (first :: list) ++
          [']', Char.ofNat 125])) =
          (readElements fuel (quotedList (first :: list) ++ [']', Char.ofNat 125])).bind
            fun found => some (.array found.1, found.2) :=
        readValue_array (by decide) (by decide) _
      rw [array]
      constructor
      · intro found
        obtain ⟨⟨v, mid⟩, inside, found⟩ := Option.bind_eq_some_iff.mp found
        obtain ⟨⟨es, mid'⟩, elements, same⟩ := Option.bind_eq_some_iff.mp inside
        cases same
        obtain ⟨⟨last, rest⟩, members, found⟩ := Option.bind_eq_some_iff.mp found
        have end_ : last = [("params".toList, .array ((first :: list).map .string))] := by
          split at found
          · have whole := (Value.object.inj (Option.some.inj found))
            exact (List.cons.inj (List.cons.inj whole).2).2
          · cases found
        subst end_
        obtain ⟨same, brace⟩ : _ ∧ rest.length < mid'.length := readBehind_last members
        cases same
        have behind : [Char.ofNat 125].length ≤ mid'.length := by
          rw [List.length_singleton]
          omega
        exact plain_of_readElements elements behind
      · intro plain
        rw [readElements_quotedList plain _ enough, Option.bind_some, Option.bind_some,
          readBehind_brace]
        rfl

end RazorCrypto.BinanceMd
