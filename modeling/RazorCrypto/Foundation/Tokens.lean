import Mathlib.Data.List.Basic
import Mathlib.Order.Basic
import Mathlib.Order.Nat

/-!
# Splitting a list at a separator

A token of `s` is a non-empty stretch without the separator that cannot be made longer on
either side. A stop is a place where a token has to end: a separator, or the end of the list.
Between consecutive stops lies at most one token, so that the stops in order give all tokens
in order. This is what every splitting function computes, however it goes about it.
-/

universe u

namespace Tokens

variable {α : Type u}

/-- The stretch of `s` from `b` on and before `e` is a token. -/
structure Token (s : List α) (ch : α) (b e : Nat) : Prop where
  nonempty : b < e
  inside : e ≤ s.length
  free : ∀ i, b ≤ i → i < e → s[i]? ≠ some ch
  left : b = 0 ∨ s[b - 1]? = some ch
  right : e = s.length ∨ s[e]? = some ch

/-- The stretch itself. -/
def substr (s : List α) (b e : Nat) : List α := (s.drop b).take (e - b)

/-- A separator or the end. -/
def IsStop (s : List α) (ch : α) (q : Nat) : Prop := q = s.length ∨ s[q]? = some ch

/-- All stops from `b` on, in order. -/
structure Stops (s : List α) (ch : α) (b : Nat) (ps : List Nat) : Prop where
  sorted : ps.Pairwise (· < ·)
  complete : ∀ q, q ∈ ps ↔ b ≤ q ∧ IsStop s ch q

/-- The stretches between the stops that are not empty. -/
def spans : Nat → List Nat → List (Nat × Nat)
  | _, [] => []
  | b, p :: ps => if b < p then (b, p) :: spans (p + 1) ps else spans (p + 1) ps

variable {s : List α} {ch : α} {b a e p : Nat} {ps : List Nat}

theorem IsStop.le (stop : IsStop s ch p) : p ≤ s.length := by
  obtain end_ | separator := stop
  · exact end_.le
  · exact (List.getElem?_eq_some_iff.mp separator).1.le

namespace Stops

theorem first (h : Stops s ch b (p :: ps)) : b ≤ p ∧ IsStop s ch p :=
  (h.complete p).mp List.mem_cons_self

/-- Nothing before the first stop is a separator. -/
theorem free (h : Stops s ch b (p :: ps)) {i : Nat} (from_ : b ≤ i) (before : i < p) :
    s[i]? ≠ some ch := by
  intro separator
  have stop : i ∈ p :: ps := (h.complete i).mpr ⟨from_, .inr separator⟩
  obtain rfl | later := List.mem_cons.mp stop
  · exact Nat.lt_irrefl i before
  · exact absurd (List.rel_of_pairwise_cons h.sorted later) before.not_gt

/-- The stops after the first one. -/
theorem rest (h : Stops s ch b (p :: ps)) : Stops s ch (p + 1) ps := by
  refine ⟨h.sorted.of_cons, fun q => ?_⟩
  constructor
  · intro later
    have all := (h.complete q).mp (List.mem_cons_of_mem p later)
    exact ⟨List.rel_of_pairwise_cons h.sorted later, all.2⟩
  · rintro ⟨after, stop⟩
    have le := h.first.1
    have all : q ∈ p :: ps := (h.complete q).mpr ⟨by omega, stop⟩
    exact (List.mem_cons.mp all).resolve_left (by omega)

/-- After the last separator the next token would start outside. -/
theorem next_left (h : Stops s ch b (p :: ps)) (inside : p + 1 ≤ s.length) :
    s[p]? = some ch :=
  h.first.2.resolve_left (by omega)

end Stops

/-- A token from `b` on is the one that starts there or comes after the first stop. -/
theorem Token.start (token : Token s ch a e) (h : Stops s ch b (p :: ps)) (from_ : b ≤ a) :
    (a = b ∧ e = p) ∨ p + 1 ≤ a := by
  obtain ⟨le, stop⟩ := h.first
  obtain after | before := Nat.lt_or_ge p a
  · exact .inr after
  · have start : a = b := by
      obtain zero | separator := token.left
      · omega
      · by_contra ne
        exact h.free (by omega) (by omega) separator
    subst start
    refine .inl ⟨rfl, Nat.le_antisymm ?_ ?_⟩
    · -- the token contains no stop, and `p` is one that lies inside the list
      by_contra beyond
      have inside := token.inside
      obtain end_ | separator := stop
      · omega
      · exact token.free p le (by omega) separator
    · by_contra beyond
      have nonempty := token.nonempty
      obtain end_ | separator := token.right
      · have limit := stop.le
        omega
      · exact h.free nonempty.le (by omega) separator

/-- The stretch up to the first stop is a token if it is not empty. -/
theorem Stops.token (h : Stops s ch b (p :: ps)) (left : b = 0 ∨ s[b - 1]? = some ch)
    (nonempty : b < p) : Token s ch b p :=
  ⟨nonempty, h.first.2.le, fun _ from_ before => h.free from_ before, left, h.first.2⟩

/-- The stretches between the stops are the tokens. -/
theorem mem_spans_iff (h : Stops s ch b ps)
    (left : b ≤ s.length → b = 0 ∨ s[b - 1]? = some ch) :
    (a, e) ∈ spans b ps ↔ b ≤ a ∧ Token s ch a e := by
  induction ps generalizing b with
  | nil =>
      refine iff_of_false List.not_mem_nil ?_
      rintro ⟨from_, token⟩
      have bounds := token.nonempty
      have inside := token.inside
      exact absurd ((h.complete s.length).mpr ⟨by omega, .inl rfl⟩) List.not_mem_nil
  | cons p ps ih =>
      have later := ih h.rest fun inside => .inr (h.next_left inside)
      have le := h.first.1
      have split : (a, e) ∈ spans b (p :: ps) ↔
          (b < p ∧ a = b ∧ e = p) ∨ (p + 1 ≤ a ∧ Token s ch a e) := by
        rw [spans, ← later]
        split
        · simp [*]
        · simp [*]
      rw [split]
      constructor
      · rintro (⟨nonempty, rfl, rfl⟩ | ⟨after, token⟩)
        · exact ⟨Nat.le_refl _, h.token (left (le.trans h.first.2.le)) nonempty⟩
        · exact ⟨by omega, token⟩
      · rintro ⟨from_, token⟩
        obtain ⟨rfl, rfl⟩ | after := token.start h from_
        · exact .inl ⟨token.nonempty, rfl, rfl⟩
        · exact .inr ⟨after, token⟩

/-- The stretch before the stop with the index `i`, if it is not empty. -/
def spanAt (b : Nat) (ps : List Nat) (i : Nat) : Option (Nat × Nat) :=
  let start := if 0 < i then ps.getD (i - 1) 0 + 1 else b
  if start < ps.getD i 0 then some (start, ps.getD i 0) else none

/-- A loop over the indices of the stops finds the same stretches. -/
theorem filterMap_spanAt (b : Nat) (ps : List Nat) :
    (List.range ps.length).filterMap (spanAt b ps) = spans b ps := by
  induction ps generalizing b with
  | nil => rfl
  | cons p ps ih =>
      have shift : ∀ i, spanAt b (p :: ps) (i + 1) = spanAt (p + 1) ps i := by
        intro i
        cases i <;> rfl
      have rest : ((List.range ps.length).map Nat.succ).filterMap (spanAt b (p :: ps)) =
          spans (p + 1) ps := by
        rw [List.filterMap_map, ← ih]
        exact congrArg (fun f => List.filterMap f _) (funext shift)
      have first : spanAt b (p :: ps) 0 = if b < p then some (b, p) else none := rfl
      rw [List.length_cons, List.range_succ_eq_map, List.filterMap_cons, rest, first, spans]
      by_cases nonempty : b < p
      · rw [if_pos nonempty, if_pos nonempty]
      · rw [if_neg nonempty, if_neg nonempty]

/-- They come in order, with at least one place between two of them. -/
theorem pairwise_spans (h : Stops s ch b ps)
    (left : b ≤ s.length → b = 0 ∨ s[b - 1]? = some ch) :
    (spans b ps).Pairwise fun x y => x.2 < y.1 := by
  induction ps generalizing b with
  | nil => exact .nil
  | cons p ps ih =>
      have later := ih h.rest fun inside => .inr (h.next_left inside)
      rw [spans]
      split
      · refine later.cons ?_
        rintro ⟨a, e⟩ member
        exact ((mem_spans_iff h.rest fun inside => .inr (h.next_left inside)).mp member).1
      · exact later

theorem Token.not_mem_substr (free : ∀ i, b ≤ i → i < e → s[i]? ≠ some ch) :
    ch ∉ substr s b e := by
  intro member
  obtain ⟨i, inside, found⟩ := List.getElem_of_mem member
  have place : (substr s b e)[i]? = some ch := List.getElem?_eq_some_iff.mpr ⟨inside, found⟩
  rw [substr, List.getElem?_take] at place
  split at place
  · rw [List.getElem?_drop] at place
    exact free (b + i) (by omega) (by omega) place
  · cases place

/-- A token has at least one element. -/
theorem Token.substr_ne_nil (token : Token s ch b e) : substr s b e ≠ [] := by
  intro empty
  have length := congrArg List.length empty
  have nonempty := token.nonempty
  have inside := token.inside
  rw [substr, List.length_take, List.length_drop, List.length_nil] at length
  omega

variable [DecidableEq α]

/-- There are as many places of the separator as separators. -/
theorem length_filter_range (s : List α) (ch : α) :
    ((List.range s.length).filter fun i => s[i]? == some ch).length = s.count ch := by
  induction s with
  | nil => rfl
  | cons c s ih =>
      have rest : (((List.range s.length).map Nat.succ).filter
          fun i => (c :: s)[i]? == some ch).length = s.count ch := by
        rw [List.filter_map, List.length_map, ← ih]
        rfl
      rw [List.length_cons, List.range_succ_eq_map, List.filter_cons, List.count_cons, ← rest]
      by_cases same : c = ch
      · simp [same]
      · simp [same]

/-- The places of the separator and the end are the stops. -/
theorem stops_filter_range (s : List α) (ch : α) :
    Stops s ch 0 ((List.range s.length).filter (fun i => s[i]? == some ch) ++ [s.length]) := by
  have places : ∀ q, q ∈ (List.range s.length).filter (fun i => s[i]? == some ch) ↔
      q < s.length ∧ s[q]? = some ch := by
    intro q
    rw [List.mem_filter, List.mem_range, beq_iff_eq]
  refine ⟨?_, ?_⟩
  · apply List.pairwise_append.mpr
    refine ⟨List.pairwise_lt_range.filter _, List.pairwise_singleton _ _, ?_⟩
    intro q place e end_
    rw [List.mem_singleton.mp end_]
    exact ((places q).mp place).1
  · intro q
    rw [List.mem_append, List.mem_singleton, places, IsStop]
    constructor
    · rintro (⟨-, separator⟩ | end_)
      · exact ⟨Nat.zero_le q, .inr separator⟩
      · exact ⟨Nat.zero_le q, .inl end_⟩
    · rintro ⟨-, end_ | separator⟩
      · exact .inr end_
      · exact .inl ⟨(List.getElem?_eq_some_iff.mp separator).1, separator⟩

theorem filter_eq_self_of_free {t : List α} (free : ch ∉ t) : t.filter (· ≠ ch) = t := by
  apply List.filter_eq_self.mpr
  intro c member
  exact decide_eq_true fun same => free (same ▸ member)

/-- Together the tokens are what is left without the separators. -/
theorem flatten_spans (h : Stops s ch b ps) :
    ((spans b ps).map fun x => substr s x.1 x.2).flatten = (s.drop b).filter (· ≠ ch) := by
  induction ps generalizing b with
  | nil =>
      have beyond : s.length < b := by
        by_contra inside
        exact absurd ((h.complete s.length).mpr ⟨by omega, .inl rfl⟩) List.not_mem_nil
      rw [List.drop_eq_nil_of_le beyond.le]
      rfl
  | cons p ps ih =>
      obtain ⟨le, stop⟩ := h.first
      have free : ch ∉ substr s b p :=
        Token.not_mem_substr fun i from_ before => h.free from_ before
      have cut : s.drop b = substr s b p ++ s.drop p := by
        have rest : (s.drop b).drop (p - b) = s.drop p := by
          rw [List.drop_drop, Nat.add_sub_cancel' le]
        rw [substr, ← rest, List.take_append_drop]
      have tail : (s.drop p).filter (· ≠ ch) = (s.drop (p + 1)).filter (· ≠ ch) := by
        obtain end_ | separator := stop
        · rw [List.drop_eq_nil_of_le end_.ge, List.drop_eq_nil_of_le (by omega)]
        · obtain ⟨inside, here⟩ := List.getElem?_eq_some_iff.mp separator
          rw [List.drop_eq_getElem_cons inside, here, List.filter_cons_of_neg (by simp)]
      rw [cut, List.filter_append, filter_eq_self_of_free free, tail, ← ih h.rest, spans]
      split
      · rfl
      · have empty : substr s b p = [] := by
          rw [substr, show p - b = 0 by omega, List.take_zero]
        rw [empty, List.nil_append]

end Tokens
