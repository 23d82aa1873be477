import Mathlib.Logic.Basic

/-!
# When a fallible computation returns

`Returns x` says that a computation in `Except` ends without a failure. The rules take a
sequence of steps apart: where the later steps need only that the earlier ones returned, and
not what, the sequence returns exactly if each step does.
-/

universe u v w

namespace Fallible

variable {ε : Type u} {α β : Type v}

/-- The computation ends without a failure. -/
def Returns {α : Type w} (x : Except ε α) : Prop := ∃ a, x = .ok a

@[simp] theorem returns_ok (a : α) : Returns (.ok a : Except ε α) := ⟨a, rfl⟩

@[simp] theorem returns_pure (a : α) : Returns (pure a : Except ε α) := ⟨a, rfl⟩

@[simp] theorem not_returns_error (e : ε) : ¬ Returns (.error e : Except ε α) := nofun

theorem returns_bind_iff {x : Except ε α} {f : α → Except ε β} :
    Returns (x >>= f) ↔ ∃ a, x = .ok a ∧ Returns (f a) := by
  cases x with
  | error e => exact iff_of_false nofun nofun
  | ok a => exact ⟨fun later => ⟨a, rfl, later⟩, fun ⟨_, same, later⟩ => by cases same; exact later⟩

/-- What a sequence returns, its last step returns of what the first one did. -/
theorem exists_of_bind {x : Except ε α} {f : α → Except ε β} {b : β} (returned : x >>= f = .ok b) :
    ∃ a, x = .ok a ∧ f a = .ok b := by
  cases x with
  | error e => cases returned
  | ok a => exact ⟨a, rfl, returned⟩

/-- A step before others whose outcome does not depend on its result. -/
theorem returns_bind_const {x : Except ε α} {f : α → Except ε β} {p : Prop}
    (later : ∀ a, Returns (f a) ↔ p) : Returns (x >>= f) ↔ Returns x ∧ p := by
  rw [returns_bind_iff]
  simp only [later]
  exact exists_and_right

/-- What is done with the result of the last step does not matter. -/
theorem returns_bind_pure {x : Except ε α} {f : α → β} :
    Returns (x >>= fun a => pure (f a)) ↔ Returns x := by
  rw [returns_bind_const fun a => iff_of_true (returns_pure (f a)) trivial, and_true]

theorem returns_ite_iff {c : Prop} [Decidable c] {x y : Except ε α} :
    Returns (if c then x else y) ↔ (c → Returns x) ∧ (¬ c → Returns y) := by
  split
  · next holds => simp [holds]
  · next fails => simp [fails]

/-! ## Results and failures that are allowed -/

/-- The computation ends with a result that has a property, or with a failure that is allowed. -/
def Ends (allowed : ε → Prop) (post : α → Prop) : Except ε α → Prop
  | .ok a => post a
  | .error e => allowed e

section Ends

variable {allowed : ε → Prop} {post : α → Prop} {x : Except ε α}

@[simp] theorem ends_ok (a : α) : Ends allowed post (.ok a) ↔ post a := Iff.rfl

@[simp] theorem ends_pure (a : α) : Ends allowed post (pure a) ↔ post a := Iff.rfl

@[simp] theorem ends_error (e : ε) : Ends allowed post (.error e) ↔ allowed e := Iff.rfl

theorem Ends.mono {post' : α → Prop} (h : Ends allowed post x) (weaker : ∀ a, post a → post' a) :
    Ends allowed post' x := by
  cases x with
  | error e => exact h
  | ok a => exact weaker a h

/-- A sequence of steps: the later ones start from what the first one established. -/
theorem Ends.bind {f : α → Except ε β} {post' : β → Prop} (h : Ends allowed post x)
    (later : ∀ a, post a → Ends allowed post' (f a)) : Ends allowed post' (x >>= f) := by
  cases x with
  | error e => exact h
  | ok a => exact later a h

theorem Ends.map {f : α → β} {post' : β → Prop} (h : Ends allowed post x)
    (later : ∀ a, post a → post' (f a)) : Ends allowed post' (x.map f) := by
  cases x with
  | error e => exact h
  | ok a => exact later a h

/-- A property of what has been done is kept through a loop over a list. -/
theorem Ends.foldlM {γ : Type w} {f : β → γ → Except ε β} {I : List γ → β → Prop}
    {list : List γ} {b : β} (start : I [] b)
    (keeps : ∀ done c rest b, list = done ++ c :: rest → I done b →
      Ends allowed (I (done ++ [c])) (f b c)) :
    Ends allowed (I list) (list.foldlM f b) := by
  suffices all : ∀ done rest b, list = done ++ rest → I done b →
      Ends allowed (I list) (rest.foldlM f b) from all [] list b rfl start
  intro done rest
  induction rest generalizing done with
  | nil =>
      intro b whole reached
      rw [whole, List.append_nil, List.foldlM_nil]
      exact reached
  | cons c rest ih =>
      intro b whole reached
      rw [List.foldlM_cons]
      refine (keeps done c rest b whole reached).bind fun next kept => ?_
      exact ih (done ++ [c]) next (by rw [whole, List.append_cons]) kept

end Ends
end Fallible
