import RazorCrypto.Foundation.Decimal
import RazorCrypto.Foundation.MachineInt
import RazorCrypto.Shm.Name

/-!
# Instrument codes as integers

`_code_2_int` packs the letters of a code into pairs of decimal digits and puts the number
after them into the four digits below, all in 32 bits. `_int_2_code` takes the pairs apart
again. A single letter before a number is padded with an empty pair.
-/

namespace RazorCrypto.Common

open Decimal MachineInt Shm

/-- The variables of `_code_2_int`. -/
structure Packing where
  ret1 : Int
  ret2 : Int
  is1stNum : Bool

/-- One turn of its loop. -/
def codeStep (p : Packing) (c : UInt8) : Packing :=
  if 65 ≤ c.toInt8.toInt ∧ p.is1stNum = false then
    { p with ret1 := asInt32 (p.ret1 * 100 + (c.toInt8.toInt - 65 + 10)) }
  else
    { ret1 := if p.is1stNum = false ∧ p.ret1 < 100 then asInt32 (p.ret1 * 100) else p.ret1
      ret2 := asInt32 (p.ret2 * 10 + (c.toInt8.toInt - 48))
      is1stNum := true }

/-- `_code_2_int`. -/
def code2Int (code : Name) (len : Int) : Int :=
  let p := (code.take len.toNat).foldl codeStep ⟨0, 0, false⟩
  asInt32 (p.ret1 * 10000 + p.ret2)

/-- The loop of `_int_2_code` over the pairs, nothing if it returns an error. -/
def unpackLetters (temp : Nat) (letters : Name) : Option Name :=
  if 0 < temp then
    let pair := temp % 100
    if 10 ≤ pair ∧ pair ≤ 99 then
      unpackLetters (temp / 100) (UInt8.ofNat (65 + (pair - 10)) :: letters)
    else if pair = 0 then unpackLetters (temp / 100) letters
    else none
  else some letters

/-- The text `ERROR`. -/
def errorCode : Name := [69, 82, 82, 79, 82]

/-- `_int_2_code`. -/
def int2Code (encodedValue : Int) : Name :=
  if encodedValue = 0 then [48]
  else
    let ret2 := encodedValue.tmod 10000
    let ret1 := encodedValue.tdiv 10000
    let result := if 0 < ret1 then unpackLetters ret1.toNat [] else some []
    match result with
    | none => errorCode
    | some letters => letters ++ if 0 < ret2 then numeral ret2.toNat else []

/-- A code: letters, and after them digits or nothing. -/
structure InstrumentCode where
  letters : Name
  digits : Name
  nonempty : letters ≠ []
  upper : ∀ c ∈ letters, 65 ≤ c.toNat ∧ c.toNat ≤ 90
  digit : ∀ c ∈ digits, IsDigit c
  short : letters.length + digits.length ≤ 23

namespace InstrumentCode

/-- The characters of a code. -/
def bytes (code : InstrumentCode) : Name := code.letters ++ code.digits

/-- The two functions give the code back. -/
def Survives (code : InstrumentCode) : Prop :=
  int2Code (code2Int code.bytes code.bytes.length) = code.bytes

/-- At most two letters, or three up to `L`, and at most four digits without a leading zero. -/
def Fits (code : InstrumentCode) : Prop :=
  (code.letters.length ≤ 2 ∨ code.letters.length = 3 ∧ ∀ c ∈ code.letters.head?, c.toNat ≤ 76) ∧
    code.digits.length ≤ 4 ∧ code.digits.head? ≠ some 48

end InstrumentCode

/-! ## Pairs -/

/-- The number whose pairs of digits are the letters. -/
def pack (letters : Name) : Nat := letters.foldl (fun v c => v * 100 + (c.toNat - 55)) 0

variable {letters ls acc : Name} {c : UInt8} {t : Nat}

theorem foldl_pack (v : Nat) : letters.foldl (fun v c => v * 100 + (c.toNat - 55)) v =
    v * 100 ^ letters.length + pack letters := by
  induction letters generalizing v with
  | nil => simp [pack]
  | cons c letters ih =>
      have first : pack (c :: letters) = (c.toNat - 55) * 100 ^ letters.length + pack letters := by
        rw [← ih, pack, List.foldl_cons, Nat.zero_mul, Nat.zero_add]
      rw [List.foldl_cons, ih, first, List.length_cons]
      ring

theorem pack_cons : pack (c :: letters) = (c.toNat - 55) * 100 ^ letters.length + pack letters := by
  rw [← foldl_pack, pack, List.foldl_cons, Nat.zero_mul, Nat.zero_add]

@[simp] theorem pack_nil : pack [] = 0 := rfl

theorem pack_three (a b c : UInt8) :
    pack [a, b, c] = (a.toNat - 55) * 10000 + (b.toNat - 55) * 100 + (c.toNat - 55) := by
  simp [pack_cons, Nat.add_assoc]

/-- A letter takes two digits. -/
theorem pack_lt (upper : ∀ c ∈ letters, 65 ≤ c.toNat ∧ c.toNat ≤ 90) :
    pack letters < 100 ^ letters.length := by
  induction letters with
  | nil => decide
  | cons c letters ih =>
      have high := (upper c List.mem_cons_self).2
      have rest := ih fun d member => upper d (List.mem_cons_of_mem c member)
      have pair : (c.toNat - 55) * 100 ^ letters.length ≤ 35 * 100 ^ letters.length :=
        Nat.mul_le_mul_right _ (by omega)
      rw [pack_cons, List.length_cons, Nat.pow_succ]
      omega

theorem pack_append_singleton : pack (letters ++ [c]) = pack letters * 100 + (c.toNat - 55) := by
  rw [pack, List.foldl_append]
  rfl

/-- A pair of a letter is taken off. -/
theorem unpackLetters_pair {pair : Nat} (low : 10 ≤ pair) (high : pair ≤ 99) :
    unpackLetters (t * 100 + pair) acc =
      unpackLetters t (UInt8.ofNat (65 + (pair - 10)) :: acc) := by
  have last : (t * 100 + pair) % 100 = pair := by omega
  have rest : (t * 100 + pair) / 100 = t := by omega
  rw [unpackLetters, if_pos (by omega)]
  dsimp only
  rw [last, rest, if_pos ⟨low, high⟩]

/-- An empty pair is skipped. -/
theorem unpackLetters_padding (pos : 0 < t) :
    unpackLetters (t * 100) acc = unpackLetters t acc := by
  have last : t * 100 % 100 = 0 := by omega
  have rest : t * 100 / 100 = t := by omega
  rw [unpackLetters, if_pos (by omega)]
  dsimp only
  rw [last, rest, if_neg (by omega), if_pos rfl]

/-- All letters come back from their pairs, however many there are. -/
theorem unpackLetters_pack (upper : ∀ c ∈ letters, 65 ≤ c.toNat ∧ c.toNat ≤ 90) :
    unpackLetters (pack letters) acc = some (letters ++ acc) := by
  induction letters using List.reverseRecOn generalizing acc with
  | nil =>
      rw [unpackLetters]
      rfl
  | append_singleton letters c ih =>
      obtain ⟨low, high⟩ := upper c (by simp)
      have letter : UInt8.ofNat (65 + (c.toNat - 55 - 10)) = c := by
        apply UInt8.toNat.inj
        rw [UInt8.toNat_ofNat']
        omega
      rw [pack_append_singleton, unpackLetters_pair (by omega) (by omega), letter,
        ih fun d member => upper d (by simp [member]), List.append_assoc]
      rfl

/-- Whatever comes out of the loop are letters, or characters above them, and their pairs were
in the number. -/
theorem unpackLetters_eq_some {result : Name} (h : unpackLetters t acc = some result) :
    ∃ ls, result = ls ++ acc ∧ (∀ c ∈ ls, 65 ≤ c.toNat) ∧ pack ls ≤ t := by
  induction t using Nat.strong_induction_on generalizing acc with
  | _ t ih =>
      rw [unpackLetters] at h
      by_cases pos : 0 < t
      · rw [if_pos pos] at h
        dsimp only at h
        have smaller : t / 100 < t := by omega
        by_cases letter : 10 ≤ t % 100 ∧ t % 100 ≤ 99
        · rw [if_pos letter] at h
          obtain ⟨ls, rfl, above, le⟩ := ih _ smaller h
          have byte : (UInt8.ofNat (65 + (t % 100 - 10))).toNat = 65 + (t % 100 - 10) := by
            rw [UInt8.toNat_ofNat']
            omega
          refine ⟨ls ++ [UInt8.ofNat (65 + (t % 100 - 10))], by simp, ?_, ?_⟩
          · intro c member
            obtain earlier | last := List.mem_append.mp member
            · exact above c earlier
            · rw [List.mem_singleton.mp last, byte]
              omega
          · rw [pack_append_singleton, byte]
            omega
        · rw [if_neg letter] at h
          by_cases padding : t % 100 = 0
          · rw [if_pos padding] at h
            obtain ⟨ls, same, above, le⟩ := ih _ smaller h
            exact ⟨ls, same, above, by omega⟩
          · rw [if_neg padding] at h
            cases h
      · rw [if_neg pos] at h
        cases h
        exact ⟨[], rfl, nofun, Nat.zero_le _⟩

/-! ## Encoding -/

theorem toInt_toInt8 (ascii : c.toNat < 128) : c.toInt8.toInt = c.toNat := by
  obtain ⟨b⟩ := c
  revert b
  decide +kernel

/-- The letters, modulo the width of an `int`. -/
theorem foldl_codeStep_letters (upper : ∀ c ∈ letters, 65 ≤ c.toNat ∧ c.toNat ≤ 90) :
    letters.foldl codeStep ⟨0, 0, false⟩ = ⟨asInt32 (pack letters), 0, false⟩ := by
  induction letters using List.reverseRecOn with
  | nil => exact congrArg (Packing.mk · 0 false) (asInt32_of_mem (by decide) (by decide)).symm
  | append_singleton letters c ih =>
      obtain ⟨low, high⟩ := upper c (by simp)
      have before := ih fun d member => upper d (by simp [member])
      have char : c.toInt8.toInt = c.toNat := toInt_toInt8 (by omega)
      have pair : (c.toNat : Int) - 65 + 10 = ((c.toNat - 55 : Nat) : Int) := by omega
      rw [List.foldl_append, before, List.foldl_cons, List.foldl_nil, codeStep, char,
        if_pos ⟨by omega, rfl⟩, pair, asInt32_mul_add, pack_append_singleton]
      rfl

/-- After the first digit only the number is read. -/
theorem foldl_codeStep_digits {ds : Name} (digits : ∀ c ∈ ds, IsDigit c) (r v : Int) :
    ds.foldl codeStep ⟨r, asInt32 v, true⟩ =
      ⟨r, asInt32 (v * 10 ^ ds.length + value ds), true⟩ := by
  induction ds generalizing v with
  | nil => simp
  | cons c ds ih =>
      obtain ⟨low, high⟩ := digits c List.mem_cons_self
      have char : c.toInt8.toInt = c.toNat := toInt_toInt8 (by omega)
      have digit : (c.toNat : Int) - 48 = ((c.toNat - 48 : Nat) : Int) := by omega
      have step : codeStep ⟨r, asInt32 v, true⟩ c =
          ⟨r, asInt32 (v * 10 + (c.toNat - 48 : Nat)), true⟩ := by
        simp [codeStep, char, digit, asInt32_mul_add]
      have number : (v * 10 + (c.toNat - 48 : Nat)) * 10 ^ ds.length + value ds =
          v * 10 ^ (c :: ds).length + value (c :: ds) := by
        rw [value_cons, List.length_cons]
        push_cast
        ring
      rw [List.foldl_cons, step,
        ih fun d member => digits d (List.mem_cons_of_mem c member), number]

/-- The pairs above the number, with the padding of a single letter. -/
def field (letters digits : Name) : Nat :=
  if digits ≠ [] ∧ pack letters < 100 then pack letters * 100 else pack letters

theorem pack_le_field (letters digits : Name) : pack letters ≤ field letters digits := by
  unfold field
  split <;> omega

/-- The first digit ends the letters and pads a single one. -/
theorem codeStep_first (digit : IsDigit c) (small : pack letters < 2147483648) (ds : Name) :
    codeStep ⟨pack letters, 0, false⟩ c =
      ⟨field letters (c :: ds), asInt32 (c.toNat - 48 : Nat), true⟩ := by
  obtain ⟨low, high⟩ := digit
  have char : c.toInt8.toInt = c.toNat := toInt_toInt8 (by omega)
  have number : (0 : Int) * 10 + ((c.toNat : Int) - 48) = ((c.toNat - 48 : Nat) : Int) := by omega
  have letter : ¬ (65 ≤ (c.toNat : Int) ∧ false = false) := by omega
  unfold codeStep field
  rw [char, if_neg letter, number]
  by_cases single : pack letters < 100
  · have padded : asInt32 ((pack letters : Int) * 100) = (pack letters * 100 : Nat) :=
      asInt32_of_mem (by omega) (by omega)
    simp [single, padded, show (pack letters : Int) < 100 by omega]
  · simp [single, show ¬ (pack letters : Int) < 100 by omega]

/-- The integer of a code, as long as nothing overflows. -/
theorem code2Int_eq (code : InstrumentCode)
    (fits : field code.letters code.digits * 10000 + value code.digits < 2147483648) :
    code2Int code.bytes code.bytes.length =
      (field code.letters code.digits * 10000 + value code.digits : Nat) := by
  have le := pack_le_field code.letters code.digits
  have small : asInt32 (pack code.letters) = pack code.letters :=
    asInt32_of_mem (by omega) (by omega)
  have number : asInt32 (value code.digits) = value code.digits :=
    asInt32_of_mem (by omega) (by omega)
  have letters := foldl_codeStep_letters code.upper
  have whole : code.bytes.take (code.bytes.length : Int).toNat = code.letters ++ code.digits :=
    List.take_length
  have all : (code.letters ++ code.digits).foldl codeStep ⟨0, 0, false⟩ =
      ⟨field code.letters code.digits, value code.digits, !code.digits.isEmpty⟩ := by
    rw [List.foldl_append, letters, small]
    cases shape : code.digits with
    | nil => simp [field]
    | cons c ds =>
        have digit := code.digit
        rw [shape] at digit number
        have rest : ∀ d ∈ ds, IsDigit d := fun d member => digit d (List.mem_cons_of_mem c member)
        rw [List.foldl_cons, codeStep_first (digit c List.mem_cons_self) (by omega) ds,
          foldl_codeStep_digits rest]
        have read : ((c.toNat - 48 : Nat) : Int) * 10 ^ ds.length + value ds =
            value (c :: ds) := by
          rw [value_cons]
          push_cast
          rfl
        rw [read, number]
        rfl
  rw [code2Int, whole, all]
  dsimp only
  exact asInt32_of_mem (by omega) (by omega)

/-! ## Decoding -/

/-- The two parts of a positive integer are taken apart. -/
theorem int2Code_of_parts {ret1 ret2 : Nat} (some_ : 0 < ret1) (low : ret2 < 10000) :
    int2Code (ret1 * 10000 + ret2 : Nat) =
      match unpackLetters ret1 [] with
      | none => errorCode
      | some letters => letters ++ if 0 < ret2 then numeral ret2 else [] := by
  have rest : ((ret1 * 10000 + ret2 : Nat) : Int).tmod 10000 = ret2 := by
    rw [Int.tmod_eq_emod_of_nonneg (by omega)]
    omega
  have whole : ((ret1 * 10000 + ret2 : Nat) : Int).tdiv 10000 = ret1 := by
    rw [Int.tdiv_eq_ediv_of_nonneg (by omega)]
    omega
  unfold int2Code
  rw [if_neg (by omega), rest, whole]
  dsimp only
  rw [if_pos (by omega), Int.toNat_natCast, Int.toNat_natCast]
  cases unpackLetters ret1 [] with
  | none => rfl
  | some letters => simp only [Int.natCast_pos]

/-- The quotient is at most 214748, and no number of a negative integer is left. -/
theorem parts_of_int {e : Int} (int : e < 2147483648) :
    (e.tdiv 10000).toNat ≤ 214748 ∧ (e.tmod 10000).toNat < 10000 := by
  obtain nonneg | negative := Int.le_total 0 e
  · rw [Int.tdiv_eq_ediv_of_nonneg nonneg, Int.tmod_eq_emod_of_nonneg nonneg]
    omega
  · have positive : 0 ≤ -e := by omega
    have quotient : e.tdiv 10000 = -((-e) / 10000) := by
      rw [← Int.tdiv_eq_ediv_of_nonneg positive, Int.neg_tdiv, Int.neg_neg]
    have rest : e.tmod 10000 = -((-e) % 10000) := by
      rw [← Int.tmod_eq_emod_of_nonneg positive, Int.neg_tmod, Int.neg_neg]
    omega

/-- What can come out for an `int` at all: letters whose pairs fit above the four digits of
a number that is not zero. -/
theorem int2Code_shape {e : Int} (nonzero : e ≠ 0) (int : e < 2147483648) :
    int2Code e = errorCode ∨ ∃ ls ds, int2Code e = ls ++ ds ∧ (∀ c ∈ ls, 65 ≤ c.toNat) ∧
      pack ls ≤ 214748 ∧ (ds = [] ∨ ∃ n, 0 < n ∧ n < 10000 ∧ ds = numeral n) := by
  obtain ⟨le, low⟩ := parts_of_int int
  unfold int2Code
  rw [if_neg nonzero]
  dsimp only
  generalize read : (if 0 < e.tdiv 10000 then unpackLetters (e.tdiv 10000).toNat []
    else some []) = result
  cases result with
  | none => exact .inl rfl
  | some letters =>
      have digits : (if 0 < e.tmod 10000 then numeral (e.tmod 10000).toNat else []) = [] ∨
          ∃ n, 0 < n ∧ n < 10000 ∧
            (if 0 < e.tmod 10000 then numeral (e.tmod 10000).toNat else []) = numeral n := by
        by_cases pos : 0 < e.tmod 10000
        · exact .inr ⟨(e.tmod 10000).toNat, by omega, low, if_pos pos⟩
        · exact .inl (if_neg pos)
      have pairs : (∀ c ∈ letters, 65 ≤ c.toNat) ∧ pack letters ≤ 214748 := by
        by_cases pos : 0 < e.tdiv 10000
        · rw [if_pos pos] at read
          obtain ⟨ls, same, above, upto⟩ := unpackLetters_eq_some read
          rw [List.append_nil] at same
          subst same
          exact ⟨above, upto.trans le⟩
        · rw [if_neg pos] at read
          cases read
          exact ⟨nofun, Nat.zero_le _⟩
      exact .inr ⟨letters, _, rfl, pairs.1, pairs.2, digits⟩

/-! ## The round trip -/

namespace InstrumentCode

variable (code : InstrumentCode)

/-- Letters and digits of a text can only be told apart in one way. -/
theorem split_unique {ls ds : Name} (same : code.bytes = ls ++ ds) (above : ∀ c ∈ ls, 65 ≤ c.toNat)
    (digits : ∀ c ∈ ds, IsDigit c) : code.letters = ls ∧ code.digits = ds := by
  have letters : ∀ {xs ys : Name}, (∀ c ∈ xs, 65 ≤ c.toNat) → (∀ c ∈ ys, IsDigit c) →
      (xs ++ ys).takeWhile (65 ≤ ·.toNat) = xs := by
    intro xs ys letters digits
    have stop : ys.takeWhile (65 ≤ ·.toNat) = [] := by
      cases ys with
      | nil => rfl
      | cons c ys =>
          have high := (digits c List.mem_cons_self).2
          exact List.takeWhile_cons_of_neg (by simp; omega)
    rw [List.takeWhile_append_of_pos (fun c member => decide_eq_true (letters c member)), stop,
      List.append_nil]
  have own : code.bytes.takeWhile (65 ≤ ·.toNat) = code.letters :=
    letters (fun c member => (code.upper c member).1) code.digit
  rw [same, letters above digits] at own
  subst own
  exact ⟨rfl, List.append_cancel_left same⟩

/-- Each letter fills its pair. -/
theorem pack_bound : 10 * 100 ^ (code.letters.length - 1) ≤ pack code.letters := by
  obtain ⟨c, letters, shape⟩ := List.exists_cons_of_ne_nil code.nonempty
  have low := (code.upper c (shape ▸ List.mem_cons_self)).1
  rw [shape, pack_cons, List.length_cons, Nat.add_sub_cancel]
  calc 10 * 100 ^ letters.length ≤ (c.toNat - 55) * 100 ^ letters.length :=
        Nat.mul_le_mul_right _ (by omega)
    _ ≤ _ := Nat.le_add_right _ _

/-- So only so many of them fit. -/
theorem letters_of_pack_le (le : pack code.letters ≤ 214748) :
    code.letters.length ≤ 2 ∨
      code.letters.length = 3 ∧ ∀ c ∈ code.letters.head?, c.toNat ≤ 76 := by
  have bound := code.pack_bound
  have upper := code.upper
  obtain few | many := Nat.lt_or_ge code.letters.length 4
  · obtain two | three : code.letters.length ≤ 2 ∨ code.letters.length = 3 := by omega
    · exact .inl two
    · refine .inr ⟨three, ?_⟩
      obtain ⟨a, b, c, shape⟩ := List.length_eq_three.mp three
      rw [shape] at le upper ⊢
      have second := (upper b (by simp)).1
      have third := (upper c (by simp)).1
      rw [pack_three] at le
      rintro _ ⟨⟩
      omega
  · have power : 100 ^ 3 ≤ 100 ^ (code.letters.length - 1) :=
      Nat.pow_le_pow_right (by decide) (by omega)
    omega

theorem fits_of_survives (survives : code.Survives) : code.Fits ∨ code.bytes = errorCode := by
  unfold Survives at survives
  have int : code2Int code.bytes code.bytes.length < 2147483648 := (asInt32_bounds _).2
  by_cases zero : code2Int code.bytes code.bytes.length = 0
  · -- zero is decoded to a digit, and a code begins with a letter
    rw [zero] at survives
    obtain ⟨none, -⟩ := code.split_unique (show code.bytes = [] ++ [48] from survives.symm)
      (List.forall_mem_nil _) (by simp [IsDigit])
    exact absurd none code.nonempty
  · obtain error | ⟨ls, ds, decoded, above, le, number⟩ := int2Code_shape zero int
    · exact .inr (survives.symm.trans error)
    · have digits : ∀ c ∈ ds, IsDigit c := by
        obtain rfl | ⟨n, -, -, rfl⟩ := number
        · exact List.forall_mem_nil _
        · exact fun c member => isDigit_of_mem_numeral member
      obtain ⟨rfl, rfl⟩ := code.split_unique (survives.symm.trans decoded) above digits
      refine .inl ⟨code.letters_of_pack_le le, ?_⟩
      obtain none | ⟨n, pos, low, written⟩ := number
      · rw [none]
        exact ⟨Nat.zero_le _, (Option.some_ne_none 48).symm⟩
      · rw [written]
        exact ⟨(length_numeral_le_iff (by decide)).mpr low, head?_numeral_ne (by omega)⟩

/-- The letters that fit, as a number. -/
theorem pack_le_of_fits (fits : code.Fits) : pack code.letters ≤ 213535 := by
  have upper := code.upper
  obtain ⟨two | ⟨three, first⟩, -⟩ := fits
  · have lt := pack_lt upper
    have power : 100 ^ code.letters.length ≤ 100 ^ 2 := Nat.pow_le_pow_right (by decide) two
    omega
  · obtain ⟨a, b, c, shape⟩ := List.length_eq_three.mp three
    rw [shape] at upper first ⊢
    have one := first a rfl
    have second := (upper b (by simp)).2
    have third := (upper c (by simp)).2
    rw [pack_three]
    omega

theorem survives_of_fits (fits : code.Fits) : code.Survives := by
  have pos : 0 < pack code.letters := by
    have power : 0 < 100 ^ (code.letters.length - 1) := Nat.pow_pos (by decide)
    have bound := code.pack_bound
    omega
  have letters : unpackLetters (field code.letters code.digits) [] = some code.letters := by
    have whole : unpackLetters (pack code.letters) [] = some code.letters := by
      rw [unpackLetters_pack code.upper, List.append_nil]
    unfold field
    split
    · rw [unpackLetters_padding pos, whole]
    · exact whole
  have number : (if 0 < value code.digits then numeral (value code.digits) else []) =
      code.digits := by
    by_cases empty : code.digits = []
    · rw [empty]
      rfl
    · have same := numeral_value code.digit empty fits.2.2
      have nonzero : value code.digits ≠ 0 := by
        intro zero
        rw [zero] at same
        exact fits.2.2 (same ▸ rfl)
      rw [if_pos (by omega), same]
  have low : value code.digits < 10000 := by
    refine (value_lt code.digit).trans_le ?_
    exact Nat.pow_le_pow_right (by decide) fits.2.1
  have le : field code.letters code.digits ≤ 213535 := by
    have pairs := code.pack_le_of_fits fits
    unfold field
    split <;> omega
  have some_ := pos.trans_le (pack_le_field code.letters code.digits)
  unfold Survives
  rw [code2Int_eq code (by omega), int2Code_of_parts some_ low, letters]
  dsimp only
  rw [number]
  rfl

theorem survives_errorCode (error : code.bytes = errorCode) : code.Survives := by
  unfold Survives
  rw [error]
  decide +kernel

theorem survives_iff_fits : code.Survives ↔ code.Fits ∨ code.bytes = errorCode := by
  constructor
  · exact code.fits_of_survives
  · rintro (fits | error)
    · exact code.survives_of_fits fits
    · exact code.survives_errorCode error

/-- Exactly the codes that fit, and one that happens to be the text of the error, survive the
round trip. Two codes that survive have different integers. -/
theorem survives_iff (code : InstrumentCode) :
    (code.Survives ↔ code.Fits ∨ code.bytes = errorCode) ∧
    ∀ code' : InstrumentCode, (code.Fits ∨ code.bytes = errorCode) →
      (code'.Fits ∨ code'.bytes = errorCode) →
      code2Int code.bytes code.bytes.length = code2Int code'.bytes code'.bytes.length →
      code.bytes = code'.bytes := by
  refine ⟨code.survives_iff_fits, ?_⟩
  intro code' fits fits' same
  have first : int2Code _ = code.bytes := code.survives_iff_fits.mpr fits
  have second : int2Code _ = code'.bytes := code'.survives_iff_fits.mpr fits'
  rw [← first, ← second, same]

end InstrumentCode

/-- Two letters and the month of a contract. -/
def contract : InstrumentCode :=
  ⟨[73, 70], [50, 53, 48, 56], nofun, by simp, by simp [IsDigit], by simp⟩

/-- The month after it. -/
def nextContract : InstrumentCode :=
  ⟨[73, 70], [50, 53, 48, 57], nofun, by simp, by simp [IsDigit], by simp⟩

theorem survives_iff_contract :
    (contract.Survives ↔ contract.Fits ∨ contract.bytes = errorCode) ∧ contract.Fits ∧
      (code2Int contract.bytes contract.bytes.length =
        code2Int nextContract.bytes nextContract.bytes.length →
          contract.bytes = nextContract.bytes) := by
  have fits : contract.Fits := ⟨.inl (by decide), by decide, by decide⟩
  have fits' : nextContract.Fits := ⟨.inl (by decide), by decide, by decide⟩
  obtain ⟨survives, distinct⟩ := InstrumentCode.survives_iff contract
  exact ⟨survives, fits, distinct nextContract (.inl fits) (.inl fits')⟩

/-- A contract with a leading zero. -/
def leadingZero : InstrumentCode :=
  ⟨[65], [48, 49], nofun, by simp, by simp [IsDigit], by simp⟩

/-- The same without it. -/
def withoutZero : InstrumentCode :=
  ⟨[65], [49], nofun, by simp, by simp [IsDigit], by simp⟩

/-- They share one integer, so that the first does not survive. -/
theorem not_survives_leadingZero :
    ¬ (∀ code : InstrumentCode, code.Survives) ∧ ¬ leadingZero.Survives ∧
      leadingZero.bytes ≠ withoutZero.bytes ∧
      code2Int leadingZero.bytes leadingZero.bytes.length =
        code2Int withoutZero.bytes withoutZero.bytes.length := by
  have not : ¬ leadingZero.Survives := by
    unfold InstrumentCode.Survives
    decide +kernel
  exact ⟨fun all => not (all _), not, by decide, by decide +kernel⟩

end RazorCrypto.Common
