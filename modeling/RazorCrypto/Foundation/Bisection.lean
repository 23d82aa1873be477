import Mathlib.Order.Defs.PartialOrder

/-!
# Bisection with a stop at equality

A search looks at positions between two ends, and drops the half on the wrong side of the position
it looked at. `cmp` says where a position lies from what is searched for. If a position is
equal, the search stops there. Otherwise it ends at a cut, with everything in front of it before,
and everything behind it after, so that one step back or forward gives the last position not
after, or the first not before. `Search` leaves open which positions between the ends are looked
at, and collects them.
-/

namespace Bisection

/-- A search from `left` to `right` that looks at the positions of a list and ends at a result. -/
inductive Search (cmp : Int → Ordering) : Int → Int → List Int → Int → Prop
  | done {left right} (met : right ≤ left) : Search cmp left right [] right
  | hit {left right mid} (low : left ≤ mid) (high : mid < right) (eq : cmp mid = .eq) :
      Search cmp left right [mid] mid
  | floor {left right} (nonempty : left < right) (gt : cmp left = .gt) :
      Search cmp left right [left] left
  | down {left right mid probes result} (low : left ≤ mid) (high : mid < right)
      (gt : cmp mid = .gt) (rest : Search cmp left (mid - 1) probes result) :
      Search cmp left right (mid :: probes) result
  | up {left right mid probes result} (low : left ≤ mid) (high : mid < right)
      (lt : cmp mid = .lt) (rest : Search cmp (mid + 1) right probes result) :
      Search cmp left right (mid :: probes) result

/-- Positions before come first, positions after last. -/
structure Sorted (cmp : Int → Ordering) (low last : Int) : Prop where
  before : ∀ {i j}, low ≤ i → i ≤ j → j ≤ last → cmp j = .lt → cmp i = .lt
  after : ∀ {i j}, low ≤ i → i ≤ j → j ≤ last → cmp i = .gt → cmp j = .gt

/-- The last position of the window that is not after. -/
structure IsLast (cmp : Int → Ordering) (low last e : Int) : Prop where
  inside : low ≤ e
  bound : e ≤ last
  notAfter : cmp e ≠ .gt
  rest : ∀ i, e < i → i ≤ last → cmp i = .gt

/-- The first position of the window that is not before. -/
structure IsFirst (cmp : Int → Ordering) (low last s : Int) : Prop where
  inside : low ≤ s
  bound : s ≤ last
  notBefore : cmp s ≠ .lt
  rest : ∀ i, low ≤ i → i < s → cmp i = .lt

/-- What a search of the window up to its end relies on: what it leaves in front of `left` is
before, also where it looks at positions in front of the window. -/
structure Covers (cmp : Int → Ordering) (low last left : Int) (probes : List Int) : Prop where
  nonempty : low ≤ last
  sorted : Sorted cmp low last
  passes : ∀ p ∈ probes, p < low → cmp p = .lt
  before : ∀ i, low ≤ i → i < left → i ≤ last → cmp i = .lt

def stepBack (cmp : Int → Ordering) (i : Int) : Int := if cmp i = .gt then i - 1 else i

def stepForward (cmp : Int → Ordering) (i : Int) : Int := if cmp i = .lt then i + 1 else i

variable {cmp : Int → Ordering} {low last left right result : Int} {probes : List Int}

theorem stepBack_of_eq {i : Int} (eq : cmp i = .eq) : stepBack cmp i = i := by
  simp [stepBack, eq]

theorem stepForward_of_eq {i : Int} (eq : cmp i = .eq) : stepForward cmp i = i := by
  simp [stepForward, eq]

namespace Search

/-- The search looks between its ends. -/
theorem probe_mem (search : Search cmp left right probes result) {p : Int} (probe : p ∈ probes) :
    left ≤ p ∧ p < right := by
  induction search with
  | done => cases probe
  | hit low high =>
      obtain rfl := List.mem_singleton.1 probe
      exact ⟨low, high⟩
  | floor nonempty =>
      obtain rfl := List.mem_singleton.1 probe
      exact ⟨Int.le_refl _, nonempty⟩
  | down low high gt rest ih =>
      obtain rfl | later := List.mem_cons.1 probe
      · exact ⟨low, high⟩
      · have between := ih later
        omega
  | up low high lt rest ih =>
      obtain rfl | later := List.mem_cons.1 probe
      · exact ⟨low, high⟩
      · have between := ih later
        omega

theorem le_right (search : Search cmp left right probes result) : result ≤ right := by
  induction search with
  | done => exact Int.le_refl _
  | hit _ high => exact Int.le_of_lt high
  | floor nonempty => exact Int.le_of_lt nonempty
  | down low high gt rest ih => omega
  | up low high lt rest ih => exact ih

/-- An equal position is the result. -/
theorem eq_of_hit (search : Search cmp left right probes result) {p : Int} (probe : p ∈ probes)
    (eq : cmp p = .eq) : result = p := by
  induction search with
  | done => cases probe
  | hit low high => exact (List.mem_singleton.1 probe).symm
  | floor nonempty => exact (List.mem_singleton.1 probe).symm
  | down low high gt rest ih =>
      obtain rfl | later := List.mem_cons.1 probe
      · cases gt.symm.trans eq
      · exact ih later
  | up low high lt rest ih =>
      obtain rfl | later := List.mem_cons.1 probe
      · cases lt.symm.trans eq
      · exact ih later

/-- The search does not come back behind a position that is not before. -/
theorem le_of_probe (search : Search cmp left right probes result) {p : Int} (probe : p ∈ probes)
    (notBefore : cmp p ≠ .lt) : result ≤ p := by
  induction search with
  | done => cases probe
  | hit low high => exact Int.le_of_eq (List.mem_singleton.1 probe).symm
  | floor nonempty => exact Int.le_of_eq (List.mem_singleton.1 probe).symm
  | down low high gt rest ih =>
      obtain rfl | later := List.mem_cons.1 probe
      · have bound := rest.le_right
        omega
      · exact ih later
  | up low high lt rest ih =>
      obtain rfl | later := List.mem_cons.1 probe
      · exact absurd lt notBefore
      · exact ih later

theorem low_le_probe (passes : ∀ p ∈ probes, p < low → cmp p = .lt) {p : Int} (probe : p ∈ probes)
    (notBefore : cmp p ≠ .lt) : low ≤ p :=
  Int.not_lt.1 fun front => notBefore (passes p probe front)

/-- The search does not leave a window whose first position is not after. -/
theorem low_le (search : Search cmp left right probes result) (start : cmp low ≠ .gt)
    (nonempty : low ≤ right) (passes : ∀ p ∈ probes, p < low → cmp p = .lt) : low ≤ result := by
  induction search with
  | done => exact nonempty
  | hit _ _ eq => exact low_le_probe passes List.mem_cons_self (by simp [eq])
  | floor _ gt => exact low_le_probe passes List.mem_cons_self (by simp [gt])
  | @down left right mid probes result _ high gt rest ih =>
      have inside : low ≤ mid := low_le_probe passes List.mem_cons_self (by simp [gt])
      have ne : mid ≠ low := by
        rintro rfl
        exact start gt
      exact ih (by omega) fun p later => passes p (List.mem_cons_of_mem _ later)
  | up _ high _ rest ih =>
      exact ih nonempty fun p later => passes p (List.mem_cons_of_mem _ later)

/-- Without an equal position the result cuts the window. -/
theorem cut (search : Search cmp left right probes result) (sorted : Sorted cmp low last)
    (high : right ≤ last) (passes : ∀ p ∈ probes, p < low → cmp p = .lt)
    (before : ∀ i, low ≤ i → i < left → i ≤ last → cmp i = .lt)
    (after : ∀ i, right < i → low ≤ i → i ≤ last → cmp i = .gt) :
    (result ∈ probes ∧ cmp result = .eq) ∨
      ∀ i, low ≤ i → i ≤ last → (i < result → cmp i = .lt) ∧ (result < i → cmp i = .gt) := by
  induction search with
  | done met =>
      refine .inr fun i inside bound => ⟨fun less => ?_, fun more => after i more inside bound⟩
      exact before i inside (by omega) bound
  | hit _ _ eq => exact .inl ⟨by simp, eq⟩
  | @floor left right nonempty gt =>
      have inside : low ≤ left := low_le_probe passes List.mem_cons_self (by simp [gt])
      refine .inr fun i start bound => ⟨fun less => before i start less bound, fun more => ?_⟩
      exact sorted.after inside (Int.le_of_lt more) bound gt
  | @down left right mid probes result _ less gt rest ih =>
      have inside : low ≤ mid := low_le_probe passes List.mem_cons_self (by simp [gt])
      obtain ⟨later, eq⟩ | cut := ih (by omega)
        (fun p later => passes p (List.mem_cons_of_mem _ later)) before
        fun i more _ bound => sorted.after inside (by omega) bound gt
      · exact .inl ⟨List.mem_cons_of_mem _ later, eq⟩
      · exact .inr cut
  | @up left right mid probes result _ less lt rest ih =>
      obtain ⟨later, eq⟩ | cut := ih high
        (fun p later => passes p (List.mem_cons_of_mem _ later))
        (fun i start front _ => sorted.before start (by omega) (by omega) lt) after
      · exact .inl ⟨List.mem_cons_of_mem _ later, eq⟩
      · exact .inr cut

variable (search : Search cmp left last probes result) (covers : Covers cmp low last left probes)

include search covers

/-- The search stops at an equal position, or one step back leads to the last one not after. -/
theorem stepBack_cases (start : cmp low ≠ .gt) :
    (result ∈ probes ∧ cmp result = .eq) ∨ IsLast cmp low last (stepBack cmp result) := by
  have inside : low ≤ result := search.low_le start covers.nonempty covers.passes
  have bound : result ≤ last := search.le_right
  obtain hit | cut := search.cut covers.sorted (Int.le_refl _) covers.passes covers.before
    fun i more _ bound => absurd bound (by omega)
  · exact .inl hit
  · right
    unfold stepBack
    split
    · next gt =>
        have ne : result ≠ low := by
          rintro rfl
          exact start gt
        have before := (cut (result - 1) (by omega) (by omega)).1 (by omega)
        refine ⟨by omega, by omega, by simp [before], fun i more high => ?_⟩
        obtain rfl | later : i = result ∨ result < i := by omega
        · exact gt
        · exact (cut i (by omega) high).2 later
    · next notAfter =>
        exact ⟨inside, bound, notAfter, fun i more high => (cut i (by omega) high).2 more⟩

/-- The search stops at an equal position, or one step forward leads to the first not before. -/
theorem stepForward_cases (start : cmp low = .lt) (finish : cmp last ≠ .lt) :
    (result ∈ probes ∧ cmp result = .eq) ∨ IsFirst cmp low last (stepForward cmp result) := by
  have inside : low ≤ result := search.low_le (by simp [start]) covers.nonempty covers.passes
  have bound : result ≤ last := search.le_right
  obtain hit | cut := search.cut covers.sorted (Int.le_refl _) covers.passes covers.before
    fun i more _ bound => absurd bound (by omega)
  · exact .inl hit
  · right
    unfold stepForward
    split
    · next lt =>
        have ne : result ≠ last := by
          rintro rfl
          exact finish lt
        have after := (cut (result + 1) (by omega) (by omega)).2 (by omega)
        refine ⟨by omega, by omega, by simp [after], fun i start less => ?_⟩
        obtain rfl | front : i = result ∨ i < result := by omega
        · exact lt
        · exact (cut i start (by omega)).1 front
    · next notBefore =>
        exact ⟨inside, bound, notBefore, fun i start less => (cut i start (by omega)).1 less⟩

/-- The last position not after is missed exactly at an equal position that is followed by one
not after. -/
theorem isLast_iff (start : cmp low ≠ .gt) :
    IsLast cmp low last (stepBack cmp result) ↔ ∀ p ∈ probes, cmp p = .eq → cmp (p + 1) = .gt := by
  constructor
  · intro isLast p probe eq
    have between := search.probe_mem probe
    obtain rfl := search.eq_of_hit probe eq
    rw [stepBack_of_eq eq] at isLast
    exact isLast.rest (result + 1) (by omega) (by omega)
  · intro distinct
    obtain ⟨probe, eq⟩ | isLast := search.stepBack_cases covers start
    · have inside : low ≤ result := search.low_le start covers.nonempty covers.passes
      have next := distinct result probe eq
      rw [stepBack_of_eq eq]
      exact ⟨inside, search.le_right, by simp [eq], fun i more high =>
        covers.sorted.after (by omega) (by omega) high next⟩
    · exact isLast

/-- The first position not before is missed exactly at an equal position that follows one not
before. -/
theorem isFirst_iff (start : cmp low = .lt) (finish : cmp last ≠ .lt) :
    IsFirst cmp low last (stepForward cmp result) ↔
      ∀ p ∈ probes, cmp p = .eq → cmp (p - 1) = .lt := by
  have inside : low ≤ result := search.low_le (by simp [start]) covers.nonempty covers.passes
  have bound : result ≤ last := search.le_right
  have above (eq : cmp result = .eq) : low < result := by
    obtain rfl | less : low = result ∨ low < result := by omega
    · cases start.symm.trans eq
    · exact less
  constructor
  · intro isFirst p probe eq
    obtain rfl := search.eq_of_hit probe eq
    have front := above eq
    rw [stepForward_of_eq eq] at isFirst
    exact isFirst.rest (result - 1) (by omega) (by omega)
  · intro distinct
    obtain ⟨probe, eq⟩ | isFirst := search.stepForward_cases covers start finish
    · have previous := distinct result probe eq
      rw [stepForward_of_eq eq]
      exact ⟨inside, bound, by simp [eq], fun i start less =>
        covers.sorted.before start (by omega) (by omega) previous⟩
    · exact isFirst

end Search
end Bisection
