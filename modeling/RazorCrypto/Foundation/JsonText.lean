import Mathlib.Algebra.BigOperators.Group.List.Basic
import Mathlib.Algebra.GroupWithZero.Nat
import Mathlib.Data.List.TakeWhile

/-!
# Reading a JSON text

A reader for JSON texts: blanks between the tokens, strings with their escapes, numbers as they
are written, arrays and objects in the order of their members. An escape of half a surrogate pair
is refused. Fuel bounds the depth of the recursion; the length of a text is enough.

What a writer needs to know is here as well. The plain characters stand for themselves in a
string, and no other character can be had for one character of the text.
-/

namespace JsonText

/-- A document. A number is the text of it. -/
inductive Value
  | null
  | bool (b : Bool)
  | number (literal : List Char)
  | string (s : List Char)
  | array (elements : List Value)
  | object (members : List (List Char × Value))

/-- The quotation mark. -/
def quote : Char := Char.ofNat 34

def backslash : Char := Char.ofNat 92

def isSpace (c : Char) : Bool := c = ' ' || c.toNat = 9 || c.toNat = 10 || c.toNat = 13

/-- The text behind its blanks. -/
def skip (text : List Char) : List Char := text.dropWhile isSpace

/-! ## Strings -/

/-- The value of a hexadecimal digit. -/
def hexDigit? (c : Char) : Option Nat :=
  if c.isDigit then some (c.toNat - 48)
  else if 97 ≤ c.toNat ∧ c.toNat ≤ 102 then some (c.toNat - 87)
  else if 65 ≤ c.toNat ∧ c.toNat ≤ 70 then some (c.toNat - 55)
  else none

/-- The character with a code of four hexadecimal digits. -/
def unicode? (a b c d : Char) : Option Char := do
  let a ← hexDigit? a
  let b ← hexDigit? b
  let c ← hexDigit? c
  let d ← hexDigit? d
  let code := ((a * 16 + b) * 16 + c) * 16 + d
  if code.isValidChar then some (Char.ofNat code) else none

/-- What a short escape stands for. -/
def unescape? (c : Char) : Option Char :=
  if c = quote || c = backslash || c = '/' then some c
  else if c = 'b' then some (Char.ofNat 8)
  else if c = 'f' then some (Char.ofNat 12)
  else if c = 'n' then some (Char.ofNat 10)
  else if c = 'r' then some (Char.ofNat 13)
  else if c = 't' then some (Char.ofNat 9)
  else none

/-- An escape behind its backslash. -/
def readEscape : List Char → Option (Option Char × List Char)
  | 'u' :: a :: b :: c :: d :: rest => do
    let c ← unicode? a b c d
    return (some c, rest)
  | c :: rest => do
    let c ← unescape? c
    return (some c, rest)
  | [] => none

/-- The next character of a string, or its end. -/
def readChar : List Char → Option (Option Char × List Char)
  | [] => none
  | c :: rest =>
    if c = quote then some (none, rest)
    else if c = backslash then readEscape rest
    else if c.toNat < 32 then none
    else some (some c, rest)

/-- The rest of a string behind its first quotation mark. -/
def readChars : Nat → List Char → Option (List Char × List Char)
  | 0, _ => none
  | fuel + 1, text => do
    match ← readChar text with
    | (none, rest) => return ([], rest)
    | (some c, rest) =>
      let (s, rest) ← readChars fuel rest
      return (c :: s, rest)

/-! ## Numbers -/

/-- An exponent, or nothing. -/
def isExponent : List Char → Bool
  | [] => true
  | c :: rest =>
    let digits := if rest.head? = some '+' || rest.head? = some '-' then rest.tail else rest
    (c = 'e' || c = 'E') && !digits.isEmpty && digits.all Char.isDigit

/-- What may come behind the digits before the point. -/
def isFraction : List Char → Bool
  | '.' :: rest =>
    !(rest.takeWhile Char.isDigit).isEmpty && isExponent (rest.dropWhile Char.isDigit)
  | rest => isExponent rest

/-- A number without its sign. -/
def isUnsigned (literal : List Char) : Bool :=
  let digits := literal.takeWhile Char.isDigit
  !digits.isEmpty && (digits.head? != some '0' || digits.length == 1) &&
    isFraction (literal.dropWhile Char.isDigit)

def isNumber : List Char → Bool
  | '-' :: rest => isUnsigned rest
  | literal => isUnsigned literal

/-- What a number can consist of. -/
def inNumber (c : Char) : Bool :=
  c.isDigit || c = '-' || c = '+' || c = '.' || c = 'e' || c = 'E'

def readNumber (text : List Char) : Option (Value × List Char) :=
  let literal := text.takeWhile inNumber
  if isNumber literal then some (.number literal, text.dropWhile inNumber) else none

/-- A word, or else a number. -/
def readWord (text : List Char) : Option (Value × List Char) :=
  if "null".toList.isPrefixOf text then some (.null, text.drop 4)
  else if "true".toList.isPrefixOf text then some (.bool true, text.drop 4)
  else if "false".toList.isPrefixOf text then some (.bool false, text.drop 5)
  else readNumber text

/-! ## Values -/

mutual

/-- A value at the start of a text, and the text behind it. -/
def readValue : Nat → List Char → Option (Value × List Char)
  | 0, _ => none
  | fuel + 1, text =>
    match skip text with
    | [] => none
    | c :: rest =>
      if c = quote then do
        let (s, rest) ← readChars (rest.length + 1) rest
        return (.string s, rest)
      else if c = '[' then
        if (skip rest).head? = some ']' then some (.array [], (skip rest).tail)
        else do
          let (elements, rest) ← readElements fuel rest
          return (.array elements, rest)
      else if c = Char.ofNat 123 then
        if (skip rest).head? = some (Char.ofNat 125) then some (.object [], (skip rest).tail)
        else do
          let (members, rest) ← readMembers fuel rest
          return (.object members, rest)
      else readWord (c :: rest)

/-- The elements of an array, with the bracket behind them. -/
def readElements : Nat → List Char → Option (List Value × List Char)
  | 0, _ => none
  | fuel + 1, text => do
    let (v, rest) ← readValue fuel text
    match skip rest with
    | ',' :: rest =>
      let (elements, rest) ← readElements fuel rest
      return (v :: elements, rest)
    | ']' :: rest => return ([v], rest)
    | _ => none

/-- The members of an object, with the brace behind them. -/
def readMembers : Nat → List Char → Option (List (List Char × Value) × List Char)
  | 0, _ => none
  | fuel + 1, text =>
    match skip text with
    | [] => none
    | c :: rest =>
      if c = quote then do
        let (name, rest) ← readChars (rest.length + 1) rest
        match skip rest with
        | ':' :: rest =>
          let (v, rest) ← readValue fuel rest
          match skip rest with
          | ',' :: rest =>
            let (members, rest) ← readMembers fuel rest
            return ((name, v) :: members, rest)
          | d :: rest => if d = Char.ofNat 125 then return ([(name, v)], rest) else none
          | [] => none
        | _ => none
      else none

end

/-- The document that a text is. -/
def read (text : List Char) : Option Value := do
  let (v, rest) ← readValue (text.length + 1) text
  if (skip rest).isEmpty then some v else none

/-! ## Blanks -/

variable {c : Char} {s text rest : List Char} {fuel : Nat}

theorem skip_cons (token : isSpace c = false) (rest : List Char) :
    skip (c :: rest) = c :: rest := by
  simp [skip, token]

theorem length_skip_le (text : List Char) : (skip text).length ≤ text.length :=
  (List.dropWhile_sublist _).length_le

/-! ## Plain characters -/

/-- A character that stands for itself in a string. -/
def Plain (c : Char) : Prop := c ≠ quote ∧ c ≠ backslash ∧ 32 ≤ c.toNat

instance (c : Char) : Decidable (Plain c) := inferInstanceAs (Decidable (_ ∧ _))

/-- What a character costs at least. -/
def cost (c : Char) : Nat := if Plain c then 1 else 2

theorem readChar_plain (plain : Plain c) (rest : List Char) :
    readChar (c :: rest) = some (some c, rest) := by
  obtain ⟨quote, backslash, control⟩ := plain
  rw [readChar, if_neg quote, if_neg backslash, if_neg (by omega)]

theorem readChars_plain (plain : ∀ c ∈ s, Plain c) (rest : List Char) (enough : s.length < fuel) :
    readChars fuel (s ++ quote :: rest) = some (s, rest) := by
  induction s generalizing fuel with
  | nil =>
      obtain ⟨fuel, rfl⟩ := Nat.exists_eq_add_of_lt enough
      rfl
  | cons c s ih =>
      obtain ⟨fuel, rfl⟩ := Nat.exists_eq_add_of_lt enough
      obtain ⟨first, plain⟩ := List.forall_mem_cons.mp plain
      rw [readChars, List.cons_append, readChar_plain first]
      show (do
        let (s, rest) ← readChars _ (s ++ quote :: rest)
        return (c :: s, rest)) = _
      rw [ih plain (by simp; omega)]
      rfl

theorem one_le_cost (c : Char) : 1 ≤ cost c := by
  rw [cost]
  split <;> omega

theorem cost_le (c : Char) : cost c ≤ 2 := by
  rw [cost]
  split <;> omega

theorem readEscape_length {next : Option Char} (found : readEscape text = some (next, rest)) :
    next.elim 1 cost + rest.length ≤ text.length + 1 := by
  unfold readEscape at found
  split at found
  · obtain ⟨c, -, same⟩ := Option.bind_eq_some_iff.mp found
    cases same
    have twice := cost_le c
    simp
    omega
  · obtain ⟨c, -, same⟩ := Option.bind_eq_some_iff.mp found
    cases same
    have twice := cost_le c
    simp
    omega
  · cases found

theorem readChar_length {next : Option Char} (found : readChar text = some (next, rest)) :
    next.elim 1 cost + rest.length ≤ text.length := by
  cases text with
  | nil => cases found
  | cons c text =>
      rw [readChar] at found
      split at found
      · cases found
        simp
        omega
      · split at found
        · exact readEscape_length found
        · split at found
          · cases found
          · next notQuote notBackslash control =>
              cases found
              have plain : Plain c := ⟨notQuote, notBackslash, by omega⟩
              simp [cost, plain]
              omega

/-- A string that was read is no longer than its text, where plain characters count once and the
others twice. -/
theorem readChars_length (found : readChars fuel text = some (s, rest)) :
    (s.map cost).sum + 1 + rest.length ≤ text.length := by
  induction fuel generalizing text s rest with
  | zero => cases found
  | succ fuel ih =>
      obtain ⟨⟨next, after⟩, first, found⟩ := Option.bind_eq_some_iff.mp found
      have consumed := readChar_length first
      cases next with
      | none =>
          cases found
          simpa using consumed
      | some c =>
          obtain ⟨⟨s', rest'⟩, later, same⟩ := Option.bind_eq_some_iff.mp found
          cases same
          have behind := ih later
          simp only [Option.elim_some] at consumed
          simp only [List.map_cons, List.sum_cons]
          omega

theorem length_le_cost (s : List Char) : s.length ≤ (s.map cost).sum := by
  induction s with
  | nil => exact Nat.le_refl _
  | cons c s ih =>
      have one := one_le_cost c
      simp only [List.length_cons, List.map_cons, List.sum_cons]
      omega

/-- A string that costs no more than its characters is plain. -/
theorem plain_of_cost_le (cheap : (s.map cost).sum ≤ s.length) : ∀ c ∈ s, Plain c := by
  induction s with
  | nil => nofun
  | cons c s ih =>
      have rest := length_le_cost s
      simp only [List.length_cons, List.map_cons, List.sum_cons] at cheap
      refine List.forall_mem_cons.mpr ⟨?_, ih ?_⟩
      · by_contra other
        rw [cost, if_neg other] at cheap
        omega
      · have one := one_le_cost c
        omega

/-! ## Lists of strings -/

/-- A string in quotation marks. -/
def quoted (s : List Char) : List Char := quote :: (s ++ [quote])

/-- Strings in quotation marks, with commas between them. -/
def quotedList : List (List Char) → List Char
  | [] => []
  | s :: list => quoted s ++ list.flatMap fun t => ',' :: quoted t

theorem length_quotedList (s : List Char) (list : List (List Char)) :
    (quotedList (s :: list)).length + 1 = ((s :: list).map fun s => s.length + 3).sum := by
  have each : ∀ t : List Char, (',' :: quoted t).length = t.length + 3 := by simp [quoted]
  rw [quotedList, List.length_append, List.length_flatMap, List.map_congr_left fun t _ => each t]
  simp [quoted]
  omega

theorem length_le_quotedList (list : List (List Char)) :
    list.length ≤ (quotedList list).length := by
  have each : ∀ list : List (List Char),
      list.length ≤ (list.flatMap fun t => ',' :: quoted t).length := by
    intro list
    induction list with
    | nil => exact Nat.zero_le _
    | cons t list ih =>
        rw [List.flatMap_cons, List.length_append, List.length_cons, List.length_cons]
        omega
  cases list with
  | nil => exact Nat.zero_le _
  | cons s list =>
      have tail := each list
      rw [quotedList, List.length_append, quoted, List.length_cons, List.length_cons]
      omega

theorem readValue_quoted (plain : ∀ c ∈ s, Plain c) (rest : List Char) :
    readValue (fuel + 1) (quoted s ++ rest) = some (.string s, rest) := by
  have shape : quoted s ++ rest = quote :: (s ++ quote :: rest) := by simp [quoted]
  rw [shape, readValue, skip_cons (by decide)]
  simp only [if_true]
  rw [readChars_plain plain rest (by rw [List.length_append, List.length_cons]; omega)]
  rfl

theorem readElements_last (plain : ∀ c ∈ s, Plain c) (rest : List Char) :
    readElements (fuel + 2) (quoted s ++ ']' :: rest) = some ([.string s], rest) := by
  rw [readElements, readValue_quoted plain]
  simp only [Option.bind_eq_bind, Option.bind_some]
  rw [skip_cons (by decide)]
  rfl

theorem readElements_comma (plain : ∀ c ∈ s, Plain c) {elements : List Value}
    (found : readElements (fuel + 1) text = some (elements, rest)) :
    readElements (fuel + 2) (quoted s ++ ',' :: text) = some (.string s :: elements, rest) := by
  rw [readElements, readValue_quoted plain]
  simp only [Option.bind_eq_bind, Option.bind_some]
  rw [skip_cons (by decide)]
  simp only [found, Option.bind_some]
  rfl

/-- Plain strings are read as they are. -/
theorem readElements_quotedList {first : List Char} {list : List (List Char)}
    (plain : ∀ s ∈ first :: list, ∀ c ∈ s, Plain c) (rest : List Char)
    (enough : list.length + 1 < fuel) :
    readElements fuel (quotedList (first :: list) ++ ']' :: rest) =
      some ((first :: list).map .string, rest) := by
  obtain ⟨head, tail⟩ := List.forall_mem_cons.mp plain
  obtain ⟨k, rfl⟩ : ∃ k, fuel = k + 2 := ⟨fuel - 2, by omega⟩
  induction list generalizing first k with
  | nil => simpa [quotedList] using readElements_last head rest
  | cons second list ih =>
      obtain ⟨k, rfl⟩ : ∃ l, k = l + 1 := ⟨k - 1, by simp at enough; omega⟩
      have shape : quotedList (first :: second :: list) ++ ']' :: rest =
          quoted first ++ ',' :: (quotedList (second :: list) ++ ']' :: rest) := by
        simp [quotedList]
      rw [shape]
      obtain ⟨head', tail'⟩ := List.forall_mem_cons.mp tail
      exact readElements_comma head (ih tail head' tail' k (by simp at enough; omega))

/-- A word or a number is no string. -/
theorem readWord_ne_string : readWord text ≠ some (.string s, rest) := by
  intro found
  simp only [readWord, readNumber] at found
  split at found
  · cases found
  · split at found
    · cases found
    · split at found
      · cases found
      · split at found <;> cases found

/-- Only a quotation mark begins a string. -/
theorem readValue_string_length (found : readValue fuel text = some (.string s, rest)) :
    (s.map cost).sum + 2 + rest.length ≤ text.length := by
  have blanks := length_skip_le text
  cases fuel with
  | zero => cases found
  | succ fuel =>
      rw [readValue] at found
      split at found
      · cases found
      · next c after split_ =>
          rw [split_, List.length_cons] at blanks
          split at found
          · obtain ⟨⟨s', rest'⟩, inside, same⟩ := Option.bind_eq_some_iff.mp found
            cases same
            have consumed := readChars_length inside
            omega
          · split at found
            · split at found
              · cases found
              · obtain ⟨elements, -, same⟩ := Option.bind_eq_some_iff.mp found
                cases same
            · split at found
              · split at found
                · cases found
                · obtain ⟨members, -, same⟩ := Option.bind_eq_some_iff.mp found
                  cases same
              · exact absurd found readWord_ne_string

/-- Strings that were read are no longer than their text, with two quotation marks for each and a
comma or the bracket behind it. -/
theorem readElements_length {list : List (List Char)}
    (found : readElements fuel text = some (list.map .string, rest)) :
    (list.map fun s => (s.map cost).sum + 3).sum + rest.length ≤ text.length := by
  induction fuel generalizing text list with
  | zero => cases found
  | succ fuel ih =>
      rw [readElements] at found
      obtain ⟨⟨v, mid⟩, first, found⟩ := Option.bind_eq_some_iff.mp found
      have blanks := length_skip_le mid
      simp only at found
      split at found
      · next after split_ =>
          rw [split_, List.length_cons] at blanks
          obtain ⟨⟨elements, rest'⟩, later, same⟩ := Option.bind_eq_some_iff.mp found
          cases list with
          | nil => cases same
          | cons s list =>
              obtain ⟨one, rfl⟩ := Prod.mk.inj (Option.some.inj same)
              obtain ⟨rfl, rfl⟩ := List.cons.inj one
              have head := readValue_string_length first
              have tail := ih later
              simp only [List.map_cons, List.sum_cons] at tail ⊢
              omega
      · next after split_ =>
          rw [split_, List.length_cons] at blanks
          cases list with
          | nil => cases found
          | cons s list =>
              obtain ⟨one, rfl⟩ := Prod.mk.inj (Option.some.inj found)
              obtain ⟨rfl, none⟩ := List.cons.inj one
              obtain rfl := List.map_eq_nil_iff.mp none.symm
              have head := readValue_string_length first
              simp only [List.map_cons, List.map_nil, List.sum_cons, List.sum_nil]
              omega
      · cases found

/-! ## Members -/

/-- The rest of the members behind the value of one: a comma and more of them, or the brace. -/
def readBehind (fuel : Nat) (name : List Char) (found : Value × List Char) :
    Option (List (List Char × Value) × List Char) :=
  match skip found.2 with
  | ',' :: rest => (readMembers fuel rest).bind fun later =>
      some ((name, found.1) :: later.1, later.2)
  | d :: rest => if d = Char.ofNat 125 then some ([(name, found.1)], rest) else none
  | [] => none

variable {name : List Char} {v : Value}

theorem readBehind_comma (text : List Char) : readBehind fuel name (v, ',' :: text) =
    (readMembers fuel text).bind fun later => some ((name, v) :: later.1, later.2) := by
  rw [readBehind, skip_cons (by decide)]
  rfl

theorem readBehind_brace (text : List Char) :
    readBehind fuel name (v, Char.ofNat 125 :: text) = some ([(name, v)], text) := by
  rw [readBehind, skip_cons (by decide)]
  rfl

theorem readMembers_quoted (plain : ∀ c ∈ name, Plain c) (text : List Char) :
    readMembers (fuel + 1) (quoted name ++ ':' :: text) =
      (readValue fuel text).bind (readBehind fuel name) := by
  have shape : quoted name ++ ':' :: text = quote :: (name ++ quote :: ':' :: text) := by
    simp [quoted]
  rw [shape, readMembers, skip_cons (by decide)]
  simp only [if_true]
  rw [readChars_plain plain _ (by rw [List.length_append, List.length_cons]; omega)]
  simp only [Option.bind_eq_bind, Option.bind_some]
  rw [skip_cons (by decide)]
  rfl

/-! ## Numerals -/

/-- A number that is not zero has no leading zero. -/
theorem head?_toDigits {n : Nat} (pos : 0 < n) : (Nat.toDigits 10 n).head? ≠ some '0' := by
  induction n using Nat.strongRecOn with
  | ind n ih =>
      by_cases small : n < 10
      · rw [Nat.toDigits_of_lt_base small]
        simp
        omega
      · have first := ih (n / 10) (by omega) (by omega)
        rw [List.head?_eq_some_head Nat.toDigits_ne_nil] at first
        rw [Nat.toDigits_of_base_le (by omega) (by omega), List.head?_append,
          List.head?_eq_some_head Nat.toDigits_ne_nil]
        exact first

theorem isDigit_toDigits (n : Nat) : ∀ c ∈ Nat.toDigits 10 n, c.isDigit = true := fun _ inside =>
  Nat.isDigit_of_mem_toDigits (by omega) (by omega) inside

theorem isUnsigned_toDigits (n : Nat) : isUnsigned (Nat.toDigits 10 n) = true := by
  have whole := List.takeWhile_eq_self_iff.mpr (isDigit_toDigits n)
  have nothing := List.dropWhile_eq_nil_iff.mpr (isDigit_toDigits n)
  rw [isUnsigned, whole, nothing]
  cases n with
  | zero => decide
  | succ n =>
      have head := head?_toDigits n.succ_pos
      have some_ : Nat.toDigits 10 (n + 1) ≠ [] := Nat.toDigits_ne_nil
      simp [head, some_, isFraction, isExponent]

theorem isNumber_of_isUnsigned (number : isUnsigned s = true) : isNumber s = true := by
  unfold isNumber
  split
  · -- no digit is a minus sign
    simp [isUnsigned] at number
  · exact number

/-- The text of an integer. -/
theorem isNumber_toString (n : Int) : isNumber (toString n).toList = true ∧
    ∀ c ∈ (toString n).toList, inNumber c = true := by
  have digits : ∀ m, ∀ c ∈ Nat.toDigits 10 m, inNumber c = true := by
    intro m c inside
    simp [inNumber, isDigit_toDigits m c inside]
  rw [Int.toString_eq_repr, Int.repr_eq_if]
  split
  · rw [Nat.toList_repr]
    refine ⟨?_, digits _⟩
    exact isNumber_of_isUnsigned (isUnsigned_toDigits n.toNat)
  · rw [String.toList_append, Nat.toList_repr]
    refine ⟨isUnsigned_toDigits _, ?_⟩
    intro c inside
    obtain minus | digit := List.mem_append.mp inside
    · rw [List.mem_singleton.mp minus]
      decide
    · exact digits _ c digit

/-- What a number can begin with begins nothing else. -/
theorem inNumber_ne (number : inNumber c = true) : isSpace c = false ∧ c ≠ quote ∧ c ≠ '[' ∧
    c ≠ Char.ofNat 123 ∧ c ≠ 'n' ∧ c ≠ 't' ∧ c ≠ 'f' := by
  refine ⟨?_, ?_, ?_, ?_, ?_, ?_, ?_⟩
  · by_contra blank
    have code : c.toNat = 32 ∨ c.toNat = 9 ∨ c.toNat = 10 ∨ c.toNat = 13 := by
      simp only [isSpace, Bool.not_eq_false, Bool.or_eq_true, decide_eq_true_eq] at blank
      obtain ((rfl | tab) | feed) | back := blank
      · exact .inl rfl
      · exact .inr (.inl tab)
      · exact .inr (.inr (.inl feed))
      · exact .inr (.inr (.inr back))
    have same := Char.ofNat_toNat c
    obtain code | code | code | code := code <;>
      rw [code] at same <;> subst same <;> exact absurd number (by decide)
  all_goals
    rintro rfl
    exact absurd number (by decide)

theorem readValue_number (number : isNumber s = true) (all : ∀ c ∈ s, inNumber c = true)
    (stop : inNumber c = false) (rest : List Char) :
    readValue (fuel + 1) (s ++ c :: rest) = some (.number s, c :: rest) := by
  cases s with
  | nil => cases number
  | cons d s =>
      obtain ⟨space, quote, bracket, brace, n, t, f⟩ := inNumber_ne (all d List.mem_cons_self)
      have taken : ((d :: s) ++ c :: rest).takeWhile inNumber = d :: s := by
        rw [List.takeWhile_append_of_pos all]
        simp [stop]
      have dropped : ((d :: s) ++ c :: rest).dropWhile inNumber = c :: rest := by
        rw [List.dropWhile_append_of_pos all]
        simp [stop]
      rw [readValue, List.cons_append, skip_cons space]
      simp only [quote, bracket, brace, if_false]
      rw [List.cons_append] at taken dropped
      rw [readWord, readNumber, taken, dropped, if_pos number]
      simp [n.symm, t.symm, f.symm]

/-! ## Arrays and objects -/

theorem readValue_array (token : isSpace c = false) (open_ : c ≠ ']') (rest : List Char) :
    readValue (fuel + 1) ('[' :: c :: rest) = (readElements fuel (c :: rest)).bind fun found =>
      some (.array found.1, found.2) := by
  rw [readValue, skip_cons (by decide)]
  simp only [skip_cons token, List.head?_cons, Option.some.injEq, open_, if_false]
  rfl

theorem readValue_array_empty (rest : List Char) :
    readValue (fuel + 1) ('[' :: ']' :: rest) = some (.array [], rest) := by
  rw [readValue, skip_cons (by decide)]
  rfl

theorem readValue_object (token : isSpace c = false) (open_ : c ≠ Char.ofNat 125)
    (rest : List Char) : readValue (fuel + 1) (Char.ofNat 123 :: c :: rest) =
      (readMembers fuel (c :: rest)).bind fun found => some (.object found.1, found.2) := by
  rw [readValue, skip_cons (by decide)]
  simp only [skip_cons token, List.head?_cons, Option.some.injEq, open_, if_false]
  rfl

/-- There is no object with members but without a first one. -/
theorem readMembers_ne_nil : readMembers fuel text ≠ some ([], rest) := by
  cases fuel with
  | zero => nofun
  | succ fuel =>
      intro found
      rw [readMembers] at found
      split at found
      · cases found
      · split at found
        · obtain ⟨⟨name, mid⟩, -, found⟩ := Option.bind_eq_some_iff.mp found
          simp only at found
          split at found
          · obtain ⟨⟨v, mid'⟩, -, found⟩ := Option.bind_eq_some_iff.mp found
            simp only at found
            split at found
            · obtain ⟨later, -, same⟩ := Option.bind_eq_some_iff.mp found
              cases same
            · split at found <;> cases found
            · cases found
          · cases found
        · cases found

/-- The last member has the brace behind it. -/
theorem readBehind_last {m : List Char × Value}
    (found : readBehind fuel name (v, text) = some ([m], rest)) :
    m = (name, v) ∧ rest.length < text.length := by
  have blanks := length_skip_le text
  unfold readBehind at found
  split at found
  · -- behind a comma there are more members
    obtain ⟨⟨later, after⟩, more, same⟩ := Option.bind_eq_some_iff.mp found
    cases same
    exact absurd more readMembers_ne_nil
  · next d after _ brace =>
      rw [brace, List.length_cons] at blanks
      split at found
      · cases found
        exact ⟨rfl, blanks⟩
      · cases found
  · cases found

/-- Strings that cost no more than their characters are plain. -/
theorem plain_of_costs_le {list : List (List Char)}
    (cheap : (list.map fun s => (s.map cost).sum + 3).sum ≤ (list.map fun s => s.length + 3).sum) :
    ∀ s ∈ list, ∀ c ∈ s, Plain c := by
  have least : ∀ list : List (List Char),
      (list.map fun s => s.length + 3).sum ≤ (list.map fun s => (s.map cost).sum + 3).sum := by
    intro list
    induction list with
    | nil => exact Nat.le_refl _
    | cons s list ih =>
        have head := length_le_cost s
        simp only [List.map_cons, List.sum_cons]
        omega
  induction list with
  | nil => nofun
  | cons s list ih =>
      have head := length_le_cost s
      have tail := least list
      simp only [List.map_cons, List.sum_cons] at cheap
      refine List.forall_mem_cons.mpr ⟨plain_of_cost_le (by omega), ih (by omega)⟩

/-- What a reader gets from the quoted strings of an array is these strings only if they are
plain. -/
theorem plain_of_readElements {first : List Char} {list : List (List Char)}
    (found : readElements fuel (quotedList (first :: list) ++ ']' :: text) =
      some ((first :: list).map .string, rest)) (behind : text.length ≤ rest.length) :
    ∀ s ∈ first :: list, ∀ c ∈ s, Plain c := by
  have consumed := readElements_length found
  have total := length_quotedList first list
  rw [List.length_append, List.length_cons] at consumed
  exact plain_of_costs_le (by omega)

end JsonText
