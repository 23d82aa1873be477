import Mathlib.Data.List.Perm.Basic

/-!
# Rows of items kept near their homes

An open-addressing table without wrapping around is one row of slots. Each item has a home,
the slot where a search for it begins, and lies some steps behind it; the filled slots carry
that distance, and a stop mark closes the row. The row is arranged if no item lies further
from its home than one step more than the item in front of it does: then a search may give
up at the first slot that is nearer to its home than the search has come.

`Arranged p reach row` speaks of the rest of a row from slot `p` on, where the slot in front
of it allows the distance `reach` at most.
-/

universe u

namespace RobinHood

/-- A slot: free, holding an item some steps behind its home, or the mark behind the row. -/
inductive Slot (α : Type u)
  | free
  | filled (distance : Nat) (item : α)
  | stop
  deriving Repr, DecidableEq

variable {α : Type u}

/-- The item of a slot. -/
def Slot.item? : Slot α → Option α
  | .filled _ item => some item
  | _ => none

/-- The items of a row, in order. -/
def items (row : List (Slot α)) : List α := row.filterMap Slot.item?

@[simp] theorem items_nil : items ([] : List (Slot α)) = [] := rfl

@[simp] theorem items_free (row : List (Slot α)) : items (.free :: row) = items row := rfl

@[simp] theorem items_filled (distance : Nat) (item : α) (row : List (Slot α)) :
    items (.filled distance item :: row) = item :: items row := rfl

@[simp] theorem items_stop (row : List (Slot α)) : items (.stop :: row) = items row := rfl

@[simp] theorem items_append (front back : List (Slot α)) :
    items (front ++ back) = items front ++ items back := List.filterMap_append

@[simp] theorem items_replicate_free (n : Nat) :
    items (List.replicate n (.free : Slot α)) = [] := by
  simp [items, Slot.item?]

theorem mem_items {row : List (Slot α)} {item : α} :
    item ∈ items row ↔ ∃ distance, Slot.filled distance item ∈ row := by
  rw [items, List.mem_filterMap]
  constructor
  · rintro ⟨_ | _ | _, listed, same⟩
    · cases same
    · cases same
      exact ⟨_, listed⟩
    · cases same
  · rintro ⟨distance, listed⟩
    exact ⟨_, listed, rfl⟩

/-- A row with its mark at the end and nowhere else. -/
def Closed (row : List (Slot α)) : Prop := ∃ body, row = body ++ [.stop] ∧ .stop ∉ body

/-- Another item in a filled slot leaves the mark where it is. -/
theorem Closed.replace {front back : List (Slot α)} {distance distance' : Nat} {item item' : α}
    (h : Closed (front ++ .filled distance item :: back)) :
    Closed (front ++ .filled distance' item' :: back) := by
  obtain ⟨body, same, unmarked⟩ := h
  obtain rfl | ⟨back, last, rfl⟩ := back.eq_nil_or_concat'
  · obtain ⟨-, mark⟩ := List.append_inj' same rfl
    cases mark
  · rw [← List.cons_append, ← List.append_assoc] at same
    obtain ⟨rfl, mark⟩ := List.append_inj' same rfl
    cases mark
    refine ⟨front ++ .filled distance' item' :: back, by simp, ?_⟩
    simpa using unmarked

section Arrangement

variable (home : α → Nat) (slots lookups : Nat)

/-- The rest of a row from slot `p` on, behind a slot that allows the distance `reach`. Each
item is fewer than `lookups` steps behind its home, and the mark is the last slot. -/
inductive Arranged : Nat → Nat → List (Slot α) → Prop
  | stop {p reach : Nat} (last : p + 1 = slots + lookups) : Arranged p reach [.stop]
  | free {p reach : Nat} {row : List (Slot α)} (rest : Arranged (p + 1) 0 row) :
      Arranged p reach (.free :: row)
  | filled {p reach distance : Nat} {item : α} {row : List (Slot α)} (near : distance ≤ reach)
      (short : distance < lookups) (place : home item + distance = p)
      (rest : Arranged (p + 1) (distance + 1) row) :
      Arranged p reach (.filled distance item :: row)

end Arrangement

namespace Arranged

variable {home : α → Nat} {slots lookups p reach reach' distance : Nat} {item : α}
variable {row front back : List (Slot α)}

theorem nonempty (h : Arranged home slots lookups p reach row) : row ≠ [] := by
  cases h <;> exact List.cons_ne_nil _ _

/-- A slot in front that allows more. -/
theorem raise (h : Arranged home slots lookups p reach row) (le : reach ≤ reach') :
    Arranged home slots lookups p reach' row := by
  cases h with
  | stop last => exact .stop last
  | free rest => exact .free rest
  | filled near short place rest => exact .filled (Nat.le_trans near le) short place rest

theorem length (h : Arranged home slots lookups p reach row) :
    p + row.length = slots + lookups := by
  induction h with
  | stop last => exact last
  | free rest ih =>
      rw [List.length_cons]
      omega
  | filled near short place rest ih =>
      rw [List.length_cons]
      omega

theorem closed (h : Arranged home slots lookups p reach row) : Closed row := by
  induction h with
  | stop last => exact ⟨[], rfl, List.not_mem_nil⟩
  | free rest ih =>
      obtain ⟨body, rfl, unmarked⟩ := ih
      exact ⟨.free :: body, rfl, by simpa using unmarked⟩
  | @filled _ _ distance item _ near short place rest ih =>
      obtain ⟨body, rfl, unmarked⟩ := ih
      exact ⟨.filled distance item :: body, rfl, by simpa using unmarked⟩

/-- Behind a slot that allows less than a search has come, the item searched for is not. -/
theorem absent (h : Arranged home slots lookups p reach row) (far : reach < distance)
    (place : home item + distance = p) : item ∉ items row := by
  induction h generalizing distance with
  | stop last => exact List.not_mem_nil
  | free rest ih =>
      rw [items_free]
      exact ih (Nat.succ_pos distance) (by omega)
  | @filled p reach distance' item' row near short place' rest ih =>
      rw [items_filled, List.mem_cons, not_or]
      refine ⟨?_, ih (Nat.succ_lt_succ (Nat.lt_of_le_of_lt near far)) (by omega)⟩
      rintro rfl
      omega

/-- A row is cut at any slot before the mark, and its rest may be replaced. -/
theorem split (h : Arranged home slots lookups p reach (front ++ back)) (left : back ≠ []) :
    ∃ allowed, Arranged home slots lookups (p + front.length) allowed back ∧
      ∀ back', Arranged home slots lookups (p + front.length) allowed back' →
        Arranged home slots lookups p reach (front ++ back') := by
  induction front generalizing p reach with
  | nil => exact ⟨reach, h, fun _ other => other⟩
  | cons slot front ih =>
      have shift : p + (slot :: front).length = p + 1 + front.length := by
        rw [List.length_cons]
        omega
      rw [shift]
      rw [List.cons_append] at h
      generalize all : front ++ back = rest at h
      cases h with
      | stop last => exact absurd (List.append_eq_nil_iff.mp all).2 left
      | free rest =>
          subst all
          obtain ⟨allowed, arranged, replaced⟩ := ih rest
          exact ⟨allowed, arranged, fun back' other => .free (replaced back' other)⟩
      | filled near short place rest =>
          subst all
          obtain ⟨allowed, arranged, replaced⟩ := ih rest
          exact ⟨allowed, arranged,
            fun back' other => .filled near short place (replaced back' other)⟩

/-- Free slots up to the mark. -/
theorem replicate_free (n : Nat) (last : p + n + 1 = slots + lookups) :
    Arranged home slots lookups p reach (List.replicate n .free ++ [.stop]) := by
  induction n generalizing p reach with
  | zero => exact .stop (by omega)
  | succ n ih =>
      rw [List.replicate_succ, List.cons_append]
      exact .free (ih (by omega))

/-- What a slot holds is as far behind its home as the slot says. -/
theorem place_of_getElem? (h : Arranged home slots lookups p reach row) {i : Nat}
    (found : row[i]? = some (.filled distance item)) :
    home item + distance = p + i ∧ distance < lookups := by
  induction h generalizing i with
  | stop last =>
      obtain - | i := i
      · cases found
      · cases found
  | free rest ih =>
      obtain - | i := i
      · cases found
      · have := ih found
        omega
  | filled near short place rest ih =>
      obtain - | i := i
      · cases found
        exact ⟨place, short⟩
      · have := ih found
        omega

end Arranged
end RobinHood
