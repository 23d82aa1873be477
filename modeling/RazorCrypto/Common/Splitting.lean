import RazorCrypto.Foundation.MachineInt
import RazorCrypto.Foundation.Tokens
import RazorCrypto.Shm.Name

/-!
# Splitting a string

`tb_splite` first collects the places of the separator, adds the length as a last one, and
then cuts a piece before each of them, from a begin and an end index that are one off these
places in either direction. Between two separators in a row the end lies before the begin.
-/

namespace RazorCrypto.Common

open MachineInt Shm Tokens

/-- The loop of `tb_splite` that fills `index_vec`. -/
def indexVec (strr : Name) (ch : UInt8) (len : Int) : List Int :=
  ((List.range len.toNat).filter fun i => strr[i]? == some ch).map Int.ofNat

/-- One turn of its second loop: what is pushed to `vec`, if anything. -/
def piece (strr : Name) (indexVec : List Int) (i : Nat) : Option Name :=
  let e := indexVec.getD i 0 - 1
  let b := if 0 < i then indexVec.getD (i - 1) 0 + 1 else 0
  if b ≤ e then some ((strr.drop b.toNat).take (e - b + 1).toNat) else none

/-- The turns of the second loop from `i` on. The increment of the largest `int` is undefined. -/
def pieces (strr : Name) (indexVec : List Int) (vecLen i : Int) : Option (List Name) :=
  if i ≤ vecLen then
    if i < 2147483647 then
      (pieces strr indexVec vecLen (i + 1)).map ((piece strr indexVec i.toNat).toList ++ ·)
    else none
  else some []
termination_by (vecLen + 1 - i).toNat

/-- `tb_splite`, where its behaviour is defined. -/
def tbSplite (strr : Name) (ch : UInt8) : Option (List Name) :=
  let len := asInt32 strr.length
  let places := indexVec strr ch len
  let vecLen := asInt32 places.length
  if vecLen = 0 then some [strr]
  else pieces strr (places ++ [len]) vecLen 0

/-- The result is right: the string itself if the separator does not occur, and else its
tokens in their order. -/
structure Splits (strr : Name) (ch : UInt8) (vec : List Name) : Prop where
  whole : ch ∉ strr → vec = [strr]
  exact : ch ∈ strr → ∃ tokens : List (Nat × Nat),
    vec = tokens.map (fun x => substr strr x.1 x.2) ∧
    tokens.Pairwise (fun x y => x.2 < y.1) ∧
    ∀ x, x ∈ tokens ↔ Token strr ch x.1 x.2
  proper : ch ∈ strr → ∀ token ∈ vec, token ≠ [] ∧ ch ∉ token
  together : ch ∈ strr → vec.flatten = strr.filter (· ≠ ch)

variable {strr : Name} {ch : UInt8}

/-- The begin and end index are those of the stretch before a stop. -/
theorem piece_eq (ps : List Nat) (i : Nat) :
    piece strr (ps.map Int.ofNat) i = (spanAt 0 ps i).map fun x => substr strr x.1 x.2 := by
  have place : ∀ j, (ps.map Int.ofNat).getD j 0 = ((ps.getD j 0 : Nat) : Int) := by
    intro j
    rw [List.getD_eq_getElem?_getD, List.getD_eq_getElem?_getD, List.getElem?_map]
    cases ps[j]? <;> rfl
  have start : (if 0 < i then ((ps.getD (i - 1) 0 : Nat) : Int) + 1 else 0) =
      ((if 0 < i then ps.getD (i - 1) 0 + 1 else 0 : Nat) : Int) := by
    split <;> rfl
  rw [piece, place, place, start, spanAt]
  generalize (if 0 < i then ps.getD (i - 1) 0 + 1 else 0) = b
  generalize ps.getD i 0 = e
  by_cases nonempty : b < e
  · have length : ((e : Int) - 1 - b + 1).toNat = e - b := by omega
    rw [if_pos nonempty, if_pos (by omega), length]
    rfl
  · rw [if_neg nonempty, if_neg (by omega)]
    rfl

/-- The places of the separator. -/
def separators (strr : Name) (ch : UInt8) : List Nat :=
  (List.range strr.length).filter fun i => strr[i]? == some ch

theorem separators_eq_nil_iff : separators strr ch = [] ↔ ch ∉ strr := by
  rw [separators, List.filter_eq_nil_iff]
  constructor
  · intro none member
    obtain ⟨i, inside, here⟩ := List.getElem_of_mem member
    refine none i (List.mem_range.mpr inside) ?_
    rw [List.getElem?_eq_getElem inside, here]
    exact beq_self_eq_true _
  · intro absent i _ here
    exact absent (List.mem_of_getElem? (beq_iff_eq.mp here))

/-- The loop ends if its last turn is not the one of the largest `int`. -/
theorem pieces_eq (strr : Name) (indexVec : List Int) (vecLen i : Nat) (le : i ≤ vecLen + 1) :
    pieces strr indexVec vecLen i = if vecLen < 2147483647 then
      some ((List.range' i (vecLen + 1 - i)).filterMap (piece strr indexVec))
    else if i ≤ vecLen then none else some [] := by
  induction n : vecLen + 1 - i generalizing i with
  | zero =>
      have done : i = vecLen + 1 := by omega
      rw [pieces, if_neg (by omega), if_neg (show ¬ i ≤ vecLen by omega)]
      exact (ite_self _).symm
  | succ n ih =>
      have more : i ≤ vecLen := by omega
      have next : ((i : Int) + 1) = (i + 1 : Nat) := rfl
      rw [pieces, if_pos (by omega), next, ih (i + 1) (by omega) (by omega), Int.toNat_natCast]
      by_cases fits : vecLen < 2147483647
      · rw [if_pos fits, if_pos fits, if_pos (by omega), Option.map_some, List.range'_succ,
          List.filterMap_cons]
        cases piece strr indexVec i <;> rfl
      · rw [if_neg fits, if_neg fits, if_pos more]
        by_cases last : (i : Int) < 2147483647
        · rw [if_pos last, if_pos (show i + 1 ≤ vecLen by omega)]
          rfl
        · exact if_neg last

/-- With indices that fit, the result are the stretches between the stops. -/
theorem tbSplite_eq (ch : UInt8) (short : strr.length < 2147483648) :
    tbSplite strr ch = if separators strr ch = [] then some [strr]
      else if (separators strr ch).length < 2147483647 then
        some ((spans 0 (separators strr ch ++ [strr.length])).map fun x => substr strr x.1 x.2)
      else none := by
  have len : asInt32 strr.length = strr.length := asInt32_of_mem (by omega) (by omega)
  have few : (separators strr ch).length ≤ strr.length := by
    apply (List.length_filter_le _ _).trans
    exact List.length_range.le
  have places : indexVec strr ch strr.length = (separators strr ch).map Int.ofNat := rfl
  have vecLen : asInt32 ((separators strr ch).map Int.ofNat).length =
      (separators strr ch).length := by
    rw [List.length_map]
    exact asInt32_of_mem (by omega) (by omega)
  have stops : (separators strr ch).map Int.ofNat ++ [(strr.length : Int)] =
      (separators strr ch ++ [strr.length]).map Int.ofNat := by simp
  have count : (separators strr ch).length + 1 = (separators strr ch ++ [strr.length]).length := by
    simp
  unfold tbSplite
  dsimp only
  rw [len, places, vecLen, stops]
  by_cases absent : separators strr ch = []
  · rw [if_pos absent, absent]
    rfl
  · have nonzero : (separators strr ch).length ≠ 0 := mt List.length_eq_zero_iff.mp absent
    have loop := pieces_eq strr
      ((separators strr ch ++ [strr.length]).map Int.ofNat) (separators strr ch).length 0
      (Nat.zero_le _)
    rw [if_pos (Nat.zero_le _), Nat.sub_zero, count, ← List.range_eq_range'] at loop
    rw [if_neg absent, if_neg (by omega), ← filterMap_spanAt, List.map_filterMap]
    refine loop.trans ?_
    congr 2
    exact congrArg (fun f => List.filterMap f _) (funext (piece_eq _))

/-- What the stretches between the stops are. -/
theorem splits_spans (present : ch ∈ strr) :
    Splits strr ch ((spans 0 (separators strr ch ++ [strr.length])).map
      fun x => substr strr x.1 x.2) := by
  have stops : Stops strr ch 0 (separators strr ch ++ [strr.length]) := stops_filter_range strr ch
  have member : ∀ x : Nat × Nat, x ∈ spans 0 (separators strr ch ++ [strr.length]) ↔
      Token strr ch x.1 x.2 := by
    rintro ⟨a, e⟩
    rw [mem_spans_iff stops fun _ => .inl rfl]
    exact and_iff_right (Nat.zero_le a)
  refine ⟨fun absent => absurd present absent, fun _ => ?_, fun _ => ?_, fun _ => ?_⟩
  · exact ⟨_, rfl, pairwise_spans stops fun _ => .inl rfl, member⟩
  · intro token in_
    obtain ⟨x, span, rfl⟩ := List.mem_map.mp in_
    have is := (member x).mp span
    exact ⟨is.substr_ne_nil, Token.not_mem_substr is.free⟩
  · rw [flatten_spans stops, List.drop_zero]

/-- `tb_splite` is exact on every string but the longest ones that have separators only. -/
theorem tbSplite_exact_iff (strr : Name) (ch : UInt8) (short : strr.length < 2 ^ 31) :
    (∃ vec, tbSplite strr ch = some vec ∧ Splits strr ch vec) ↔
      strr.count ch < 2 ^ 31 - 1 := by
  have result := tbSplite_eq ch short
  have count : (separators strr ch).length = strr.count ch := length_filter_range strr ch
  by_cases present : ch ∈ strr
  · rw [if_neg (mt separators_eq_nil_iff.mp (not_not_intro present)), count] at result
    by_cases fits : strr.count ch < 2147483647
    · rw [if_pos fits] at result
      exact iff_of_true ⟨_, result, splits_spans present⟩ fits
    · rw [if_neg fits] at result
      refine iff_of_false ?_ fits
      rintro ⟨vec, returned, -⟩
      rw [result] at returned
      cases returned
  · rw [if_pos (separators_eq_nil_iff.mpr present)] at result
    refine iff_of_true ⟨_, result, ?_⟩ ?_
    · exact ⟨fun _ => rfl, fun h => absurd h present, fun h => absurd h present,
        fun h => absurd h present⟩
    · rw [List.count_eq_zero_of_not_mem present]
      decide

/-- Leading, trailing and repeated separators. -/
theorem tbSplite_exact_iff_commas :
    ∃ vec, tbSplite [44, 49, 44, 44, 50, 51, 44] 44 = some vec ∧
      Splits [44, 49, 44, 44, 50, 51, 44] 44 vec :=
  (tbSplite_exact_iff [44, 49, 44, 44, 50, 51, 44] 44 (by decide)).mpr (by decide)

/-- On the longest string of separators the loop counter overflows. -/
theorem tbSplite_overflow :
    ¬ (∀ (strr : Name) (ch : UInt8), strr.length < 2 ^ 31 →
      ∃ vec, tbSplite strr ch = some vec ∧ Splits strr ch vec) ∧
    tbSplite (List.replicate 2147483647 44) 44 = none := by
  have length : (List.replicate 2147483647 (44 : UInt8)).length = 2147483647 :=
    List.length_replicate
  have count : (separators (List.replicate 2147483647 44) 44).length = 2147483647 :=
    (length_filter_range _ _).trans List.count_replicate_self
  have nonempty : separators (List.replicate 2147483647 44) 44 ≠ [] := by
    intro empty
    rw [empty] at count
    cases count
  have undefined : tbSplite (List.replicate 2147483647 44) 44 = none := by
    rw [tbSplite_eq 44 (by omega), if_neg nonempty, count]
    exact if_neg (Nat.lt_irrefl _)
  refine ⟨?_, undefined⟩
  intro all
  obtain ⟨vec, returned, -⟩ := all (List.replicate 2147483647 44) 44 (by rw [length]; decide)
  rw [undefined] at returned
  cases returned

end RazorCrypto.Common
