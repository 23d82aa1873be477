import RazorCrypto.Foundation.Bisection
import RazorCrypto.Shm.Plus.Query

/-!
# The search loop as a bisection

The loop of the range queries looks at the middle between its ends and compares the time there with
the one it looks for. `probes` are the indices it looks at, which decide what it finds.
-/

namespace RazorCrypto.Shm

open Bisection

/-- Where the update of an index lies from the time that is searched for. -/
def position (time : Int → UInt64) (tp : UInt64) (index : Int) : Ordering :=
  if time index = tp then .eq else if tp < time index then .gt else .lt

/-- The indices that `searchLoop` looks at. -/
def probes (time : Int → UInt64) (tp : UInt64) (left right : Int) : List Int :=
  if left < right then
    let mid := Int.tdiv (left + right) 2
    if time mid = tp then [mid]
    else if tp < time mid then
      if mid - 1 < 0 then [mid] else mid :: probes time tp left (mid - 1)
    else mid :: probes time tp (mid + 1) right
  else []
termination_by (right - left).toNat
decreasing_by
  all_goals
    have between := midpoint ‹left < right›
    omega

section Position

variable {time : Int → UInt64} {tp : UInt64} {index left right low last : Int}

theorem position_eq : position time tp index = .eq ↔ time index = tp := by
  unfold position
  split
  · next same => simp [same]
  · next other => split <;> simp [other]

theorem position_gt : position time tp index = .gt ↔ tp < time index := by
  unfold position
  split
  · next same => simp [same]
  · split <;> simp_all

theorem position_lt : position time tp index = .lt ↔ time index < tp := by
  unfold position
  split
  · next same => simp [same]
  · next other =>
      split
      · next after => simpa using UInt64.le_of_lt after
      · next after => simpa using UInt64.lt_of_le_of_ne (UInt64.not_lt.1 after) other

theorem position_ne_gt : position time tp index ≠ .gt ↔ time index ≤ tp := by
  rw [Ne, position_gt, UInt64.not_lt]

theorem position_ne_lt : position time tp index ≠ .lt ↔ tp ≤ time index := by
  rw [Ne, position_lt, UInt64.not_lt]

theorem sorted_position
    (ordered : ∀ i j, low ≤ i → i ≤ j → j ≤ last → time i ≤ time j) (tp : UInt64) :
    Sorted (position time tp) low last where
  before := by
    intro i j start le finish lt
    rw [position_lt] at lt ⊢
    exact UInt64.lt_of_le_of_lt (ordered i j start le finish) lt
  after := by
    intro i j start le finish gt
    rw [position_gt] at gt ⊢
    exact UInt64.lt_of_lt_of_le gt (ordered i j start le finish)

theorem search_probes (time : Int → UInt64) (tp : UInt64) {left right : Int} (pos : 0 ≤ left)
    (pos' : 0 ≤ right) :
    Search (position time tp) left right (probes time tp left right)
      (searchLoop time tp left right) := by
  fun_induction searchLoop time tp left right with
  | case1 left right lt mid eq =>
      have between := midpoint lt
      rw [probes, if_pos lt, if_pos eq]
      exact .hit between.1 (by omega) (position_eq.2 eq)
  | case2 left right lt mid ne after bottom =>
      have between := midpoint lt
      rw [probes, if_pos lt, if_neg ne, if_pos after, if_pos bottom]
      have low : Int.tdiv (left + right) 2 - 1 < 0 := bottom
      have same : Int.tdiv (left + right) 2 = left := by omega
      have gt : position time tp left = .gt := same ▸ position_gt.2 after
      show Search _ left right [Int.tdiv (left + right) 2] (Int.tdiv (left + right) 2)
      rw [same]
      exact .floor lt gt
  | case3 left right lt mid ne after above ih =>
      have between := midpoint lt
      rw [probes, if_pos lt, if_neg ne, if_pos after, if_neg above]
      exact .down between.1 (by omega) (position_gt.2 after) (ih pos (by omega))
  | case4 left right lt mid ne notAfter ih =>
      have between := midpoint lt
      rw [probes, if_pos lt, if_neg ne, if_neg notAfter]
      have before : time mid < tp := UInt64.lt_of_le_of_ne (UInt64.not_lt.1 notAfter) ne
      exact .up between.1 (by omega) (position_lt.2 before) (ih (by omega) pos')
  | case5 left right met =>
      rw [probes, if_neg met]
      exact .done (by omega)

end Position

end RazorCrypto.Shm
