import Mathlib.Data.List.Basic

/-!
# Labelled transition systems and their finite runs

A step relation `step s e t` says that the system can go from `s` to `t` while the
event `e` happens. A run collects its events in order, so that a statement about a
run can speak of everything that happened in it. `Run.invariant` is the one
induction: a property of the history and the state that holds at the start and is
kept by each step holds at the end of each run.
-/

universe u v w

namespace Transition

variable {σ : Type u} {ε : Type v} {ε' : Type w} {step : σ → ε → σ → Prop}

/-- An event of a history in two parts is in the second one or in the first. -/
theorem append_eq_split {es fs before after : List ε} {x : ε}
    (split : es ++ fs = before ++ x :: after) :
    (∃ more, before = es ++ more ∧ fs = more ++ x :: after) ∨
      ∃ rest, after = rest ++ fs ∧ es = before ++ x :: rest := by
  obtain ⟨more, same, new⟩ | ⟨rest, old, new⟩ := List.append_eq_append_iff.mp split
  · exact .inl ⟨more, same, new⟩
  · cases rest with
    | nil => exact .inl ⟨[], by simpa using old.symm, new.symm⟩
    | cons y rest =>
        obtain ⟨rfl, later⟩ := List.cons.inj new
        exact .inr ⟨rest, later, old⟩

/-- An event of a longer history is its last one, or among the earlier ones. -/
theorem concat_eq_split {es before after : List ε} {e x : ε}
    (split : es ++ [e] = before ++ x :: after) :
    (after = [] ∧ before = es ∧ x = e) ∨
      ∃ rest, after = rest ++ [e] ∧ es = before ++ x :: rest := by
  obtain ⟨more, rfl, last⟩ | earlier := append_eq_split split
  · obtain ⟨rfl, same⟩ : more = [] ∧ [e] = x :: after := by
      cases more with
      | nil => exact ⟨rfl, last⟩
      | cons y more => simp at last
    obtain ⟨rfl, rfl⟩ := List.cons.inj same
    exact .inl ⟨rfl, List.append_nil es, rfl⟩
  · exact .inr earlier

/-- Finite runs, extended at their end, with the events in the order they happened. -/
inductive Run (step : σ → ε → σ → Prop) (s : σ) : List ε → σ → Prop
  | refl : Run step s [] s
  | snoc {es t e u} : Run step s es t → step t e u → Run step s (es ++ [e]) u

namespace Run

variable {s t u : σ} {es fs : List ε} {e : ε}

/-- What holds at the start and is kept by each step holds at the end of each run. -/
theorem invariant {I : List ε → σ → Prop} (run : Run step s es t) (start : I [] s)
    (preserved : ∀ {es t e u}, I es t → step t e u → I (es ++ [e]) u) : I es t := by
  induction run with
  | refl => exact start
  | snoc _ taken ih => exact preserved ih taken

theorem single (taken : step s e t) : Run step s [e] t := snoc refl taken

theorem eq_of_nil (run : Run step s es t) (none : es = []) : t = s := by
  cases run with
  | refl => rfl
  | snoc => simp at none

theorem trans (first : Run step s es t) (second : Run step t fs u) :
    Run step s (es ++ fs) u := by
  induction second with
  | refl => simpa using first
  | snoc _ taken ih =>
      rw [← List.append_assoc]
      exact ih.snoc taken

/-- The run up to some point of its history, and the rest of it. -/
theorem split (run : Run step s (es ++ fs) u) : ∃ t, Run step s es t ∧ Run step t fs u := by
  generalize whole : es ++ fs = all at run
  induction run generalizing fs with
  | refl =>
      obtain ⟨rfl, rfl⟩ := List.append_eq_nil_iff.1 whole
      exact ⟨s, refl, refl⟩
  | @snoc gs t e u earlier taken ih =>
      obtain rfl | ⟨rest, last, rfl⟩ := fs.eq_nil_or_concat'
      · rw [← List.append_nil es, whole]
        exact ⟨u, earlier.snoc taken, refl⟩
      · rw [← List.append_assoc] at whole
        obtain ⟨rfl, same⟩ := List.append_inj' whole rfl
        obtain ⟨middle, first, second⟩ := ih rfl
        rw [List.singleton_inj.1 same]
        exact ⟨middle, first, second.snoc taken⟩

/-- The first step, and the rest of the run. -/
theorem uncons (run : Run step s (e :: es) t) : ∃ u, step s e u ∧ Run step u es t := by
  obtain ⟨u, first, rest⟩ : ∃ u, Run step s [e] u ∧ Run step u es t := split run
  refine ⟨u, ?_, rest⟩
  generalize one : [e] = all at first
  cases first with
  | refl => cases one
  | @snoc gs v f _ earlier taken =>
      have none : gs = [] := by
        have lengths := congrArg List.length one
        rw [List.length_append] at lengths
        exact List.eq_nil_of_length_eq_zero (by simpa using lengths.symm)
      subst none
      cases List.singleton_inj.1 one
      rwa [earlier.eq_of_nil rfl] at taken

/-- Prepend one step. -/
theorem head (taken : step s e t) (rest : Run step t es u) : Run step s (e :: es) u :=
  (single taken).trans rest

/-- A run of one relation is a run of another one that shows each step as some event. -/
theorem map {step' : σ → ε' → σ → Prop} {f : ε → ε'} (run : Run step s es t)
    (lift : ∀ {s e t}, step s e t → step' s (f e) t) : Run step' s (es.map f) t := by
  induction run with
  | refl => exact refl
  | snoc _ taken ih =>
      rw [List.map_append]
      exact ih.snoc (lift taken)

/-- A system that shows some of its events, where each step is a step of another system that
shows the same or leaves its state alone. -/
theorem observe {σ' : Type*} {step' : σ' → ε' → σ' → Prop} {f : σ → σ'} {shows : ε → Option ε'}
    {I : List ε → σ → Prop} (run : Run step s es t) (start : I [] s)
    (preserved : ∀ {es t e u}, I es t → step t e u → I (es ++ [e]) u)
    (shown : ∀ {es t e u e'}, I es t → step t e u → shows e = some e' → step' (f t) e' (f u))
    (hidden : ∀ {es t e u}, I es t → step t e u → shows e = none → f u = f t) :
    Run step' (f s) (es.filterMap shows) (f t) := by
  induction run with
  | refl => exact refl
  | @snoc es t e u earlier taken ih =>
      have known : I es t := earlier.invariant start preserved
      rw [List.filterMap_append]
      cases seen : shows e with
      | none =>
          rw [hidden known taken seen]
          simpa [seen] using ih
      | some e' => simpa [seen] using ih.snoc (shown known taken seen)

end Run

/-- Only the steps that end in a state satisfying `bound`. -/
def Bounded (step : σ → ε → σ → Prop) (bound : σ → Prop) (s : σ) (e : ε) (t : σ) : Prop :=
  step s e t ∧ bound t

end Transition
