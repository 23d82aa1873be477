import Mathlib.Algebra.BigOperators.Group.List.Basic
import Mathlib.Algebra.GroupWithZero.Nat
import Mathlib.Data.List.Nodup

/-!
# Books of updates

The purpose of a store of latest values, stated without memory: a book lists names in
the order in which they were entered and keeps, for each key, the updates accepted
under it. Names are told apart by a key function only. A book with a repeated key, or
with updates under a key that is not listed, cannot be built.

`Offer` is what offering an update to a book of limited size may do: a known name, or
a new one while there is room, is admitted; the update of an admitted name may still be
declined. One place is always left free for names that are entered by an offer.
-/

universe u v w

/-- Names in order of entry and the updates accepted under each key. -/
structure Book {ν : Type u} {κ : Type v} (key : ν → κ) (α : Type w) where
  names : List ν
  updates : κ → List α
  distinct : (names.map key).Nodup
  unlisted : ∀ k, k ∉ names.map key → updates k = []

namespace Book

variable {ν : Type u} {κ : Type v} {α : Type w} {key : ν → κ}

/-- A book with the given names and no updates. -/
def opened (names : List ν) (distinct : (names.map key).Nodup) : Book key α :=
  ⟨names, fun _ => [], distinct, fun _ _ => rfl⟩

/-- Enter a new name at the end. -/
def enroll (b : Book key α) (name : ν) (fresh : key name ∉ b.names.map key) : Book key α where
  names := b.names ++ [name]
  updates := b.updates
  distinct := by
    rw [List.map_append, List.map_singleton, List.nodup_append]
    refine ⟨b.distinct, List.nodup_singleton _, ?_⟩
    intro k listed k' new same
    rw [List.mem_singleton] at new
    subst new same
    exact fresh listed
  unlisted := by
    intro k absent
    apply b.unlisted k
    intro listed
    exact absent (by simp_all)

variable [DecidableEq κ]

/-- Accept an update under a listed key. -/
def accept (b : Book key α) (k : κ) (listed : k ∈ b.names.map key) (update : α) :
    Book key α where
  names := b.names
  updates := Function.update b.updates k (b.updates k ++ [update])
  distinct := b.distinct
  unlisted := by
    intro k' absent
    have ne : k' ≠ k := fun same => absent (same ▸ listed)
    rw [Function.update_of_ne ne]
    exact b.unlisted k' absent

omit [DecidableEq κ] in
@[simp] theorem opened_names (names : List ν) (distinct : (names.map key).Nodup) :
    (opened names distinct : Book key α).names = names := rfl

omit [DecidableEq κ] in
@[simp] theorem opened_updates (names : List ν) (distinct : (names.map key).Nodup) (k : κ) :
    (opened names distinct : Book key α).updates k = [] := rfl

omit [DecidableEq κ] in
@[simp] theorem enroll_names (b : Book key α) (name : ν) (fresh : key name ∉ b.names.map key) :
    (b.enroll name fresh).names = b.names ++ [name] := rfl

omit [DecidableEq κ] in
@[simp] theorem enroll_updates (b : Book key α) (name : ν)
    (fresh : key name ∉ b.names.map key) : (b.enroll name fresh).updates = b.updates := rfl

@[simp] theorem accept_names (b : Book key α) (k : κ) (listed : k ∈ b.names.map key)
    (update : α) : (b.accept k listed update).names = b.names := rfl

@[simp] theorem accept_updates (b : Book key α) (k : κ) (listed : k ∈ b.names.map key)
    (update : α) : (b.accept k listed update).updates =
      Function.update b.updates k (b.updates k ++ [update]) := rfl

/-- The number of updates in the book. -/
def total (b : Book key α) : Nat :=
  ((b.names.map key).map fun k => (b.updates k).length).sum

omit [DecidableEq κ] in
@[simp] theorem total_opened (names : List ν) (distinct : (names.map key).Nodup) :
    (opened names distinct : Book key α).total = 0 := by
  simp [total, Function.comp_def]

omit [DecidableEq κ] in
@[simp] theorem total_enroll (b : Book key α) (name : ν) (fresh : key name ∉ b.names.map key) :
    (b.enroll name fresh).total = b.total := by
  simp [total, b.unlisted _ fresh]

private theorem sum_map_update {ks : List κ} (nodup : ks.Nodup) {k : κ} (member : k ∈ ks)
    (f : κ → List α) (update : α) :
    (ks.map fun k' => (Function.update f k (f k ++ [update]) k').length).sum =
      (ks.map fun k' => (f k').length).sum + 1 := by
  induction ks with
  | nil => simp at member
  | cons head ks ih =>
      obtain ⟨outside, nodup⟩ := List.nodup_cons.mp nodup
      by_cases same : head = k
      · subst same
        have others : (ks.map fun k' => (Function.update f head (f head ++ [update]) k').length) =
            ks.map fun k' => (f k').length := by
          apply List.map_congr_left
          intro k' member'
          have ne : k' ≠ head := fun equal => outside (equal ▸ member')
          rw [Function.update_of_ne ne]
        rw [List.map_cons, List.map_cons, List.sum_cons, List.sum_cons, others,
          Function.update_self, List.length_append, List.length_singleton]
        omega
      · have inside : k ∈ ks := (List.mem_cons.mp member).resolve_left fun equal =>
          same equal.symm
        rw [List.map_cons, List.map_cons, List.sum_cons, List.sum_cons, ih nodup inside,
          Function.update_of_ne same]
        omega

/-- Accepting adds one update. -/
@[simp] theorem total_accept (b : Book key α) (k : κ) (listed : k ∈ b.names.map key)
    (update : α) : (b.accept k listed update).total = b.total + 1 :=
  sum_map_update b.distinct listed b.updates update

/-! ## Offers -/

/-- A name is admitted if its key is listed, or by entering it while there is room. -/
inductive Admits (cap : Nat) (b : Book key α) (name : ν) : Book key α → Prop
  | known : key name ∈ b.names.map key → Admits cap b name b
  | enrolled (fresh : key name ∉ b.names.map key) : b.names.length + 1 < cap →
      Admits cap b name (b.enroll name fresh)

/-- What offering an update may do, with the answer it gives. -/
inductive Offer (cap : Nat) (b : Book key α) (name : ν) (update : α) :
    Bool → Book key α → Prop
  | refused : key name ∉ b.names.map key → cap ≤ b.names.length + 1 →
      Offer cap b name update false b
  | declined {b'} : Admits cap b name b' → Offer cap b name update false b'
  | accepted {b'} : Admits cap b name b' → (listed : key name ∈ b'.names.map key) →
      Offer cap b name update true (b'.accept (key name) listed update)

variable {cap : Nat} {b b' : Book key α} {name : ν} {update : α} {ok : Bool}

omit [DecidableEq κ] in
theorem Admits.updates_eq (h : Admits cap b name b') : b'.updates = b.updates := by
  cases h <;> rfl

/-- The updates after an offer: one more under the offered key if it was accepted. -/
theorem Offer.updates_eq (h : Offer cap b name update ok b') (k : κ) :
    b'.updates k = b.updates k ++ if ok ∧ key name = k then [update] else [] := by
  cases h with
  | refused => simp
  | declined admits => simp [admits.updates_eq]
  | accepted admits listed =>
      rw [accept_updates, admits.updates_eq]
      by_cases same : key name = k
      · subst same
        simp
      · rw [Function.update_of_ne (Ne.symm same)]
        simp [same]

/-- An offer that is not accepted changes no updates, whether or not the name is new. -/
theorem Offer.updates_of_false (h : Offer cap b name update false b') :
    b'.updates = b.updates := by
  funext k
  simpa using h.updates_eq k

theorem Offer.total_of_false (h : Offer cap b name update false b') : b'.total = b.total := by
  cases h with
  | refused => rfl
  | declined admits =>
      cases admits with
      | known => rfl
      | enrolled fresh => exact total_enroll b name fresh

/-- The names after an offer. -/
def enlist (key : ν → κ) (cap : Nat) (names : List ν) (name : ν) : List ν :=
  if key name ∉ names.map key ∧ names.length + 1 < cap then names ++ [name] else names

/-- The names after an offer do not depend on the answer. -/
theorem Offer.names_eq (h : Offer cap b name update ok b') :
    b'.names = enlist key cap b.names name := by
  have admitted : ∀ {b'}, Admits cap b name b' → b'.names = enlist key cap b.names name := by
    intro b' admits
    cases admits with
    | known listed => exact (if_neg fun h => h.1 listed).symm
    | enrolled fresh free => exact (if_pos ⟨fresh, free⟩).symm
  cases h with
  | refused _ full => exact (if_neg fun h => by omega).symm
  | declined admits => exact admitted admits
  | accepted admits listed => exact (accept_names ..).trans (admitted admits)

end Book
