import Mathlib.Data.Int.ModEq
import Mathlib.Logic.Function.Basic

/-!
# The recent part of a history in a ring of slots

Entry `j` of a history is kept in slot `(j + off) % n`. As long as a slot is only
overwritten by an entry at least `n` places later, the slots hold the last entries
of the history. `Holds n off slots hist lo` says that every entry from `lo` on is
still in its slot; the lemmas move the two ends of that window and say which
overwriting of a slot leaves it alone. Nothing is assumed about what the entries are.
-/

universe u

namespace SlotRing

variable {α : Type u} {n off lo lo' : Nat} {slots : Nat → α} {hist : List α}

/-- Two positions less than one lap apart have different slots. -/
theorem mod_ne {a b n : Nat} (lt : a < b) (lap : b < a + n) : a % n ≠ b % n := by
  intro same
  have divides : n ∣ b - a := (Nat.modEq_iff_dvd' lt.le).mp same
  have lap' : n ≤ b - a := Nat.le_of_dvd (Nat.sub_pos_of_lt lt) divides
  omega

/-- Every entry of `hist` from position `lo` on is in its slot. -/
def Holds (n off : Nat) (slots : Nat → α) (hist : List α) (lo : Nat) : Prop :=
  ∀ j (inside : j < hist.length), lo ≤ j → slots ((j + off) % n) = hist[j]

theorem Holds.nil : Holds n off slots [] lo := by
  intro j inside
  simp at inside

theorem Holds.mono (h : Holds n off slots hist lo) (le : lo ≤ lo') :
    Holds n off slots hist lo' :=
  fun j inside low => h j inside (Nat.le_trans le low)

/-- Overwriting the slot of a later position keeps the window, as long as that
position is less than one lap after the window's low end. -/
theorem Holds.update (h : Holds n off slots hist lo) {i : Nat} (later : hist.length ≤ i)
    (lap : i < lo + n) (value : α) :
    Holds n off (Function.update slots ((i + off) % n) value) hist lo := by
  intro j inside low
  have ne : (j + off) % n ≠ (i + off) % n := mod_ne (by omega) (by omega)
  rw [Function.update_of_ne ne]
  exact h j inside low

/-- An entry that is already in its slot may be appended to the history. -/
theorem Holds.extend (h : Holds n off slots hist lo) {value : α}
    (stored : slots ((hist.length + off) % n) = value) :
    Holds n off slots (hist ++ [value]) lo := by
  intro j inside low
  by_cases old : j < hist.length
  · rw [List.getElem_append_left old]
    exact h j old low
  · have new : j = hist.length := by
      simp only [List.length_append, List.length_singleton] at inside
      omega
    subst new
    simpa using stored

/-- Storing the next entry in its slot drops at most the entry one lap before it. -/
theorem Holds.push (h : Holds n off slots hist (hist.length - n)) (value : α) :
    Holds n off (Function.update slots ((hist.length + off) % n) value) (hist ++ [value])
      (hist.length + 1 - n) := by
  have kept := (h.mono (show hist.length - n ≤ hist.length + 1 - n by omega)).update
    (Nat.le_refl _) (show hist.length < hist.length + 1 - n + n by omega) value
  exact kept.extend (Function.update_self ..)

/-- The newest entry is in its slot. -/
theorem Holds.last (h : Holds n off slots hist lo) (nonempty : hist ≠ [])
    (low : lo < hist.length) :
    slots ((hist.length - 1 + off) % n) = hist.getLast nonempty := by
  rw [List.getLast_eq_getElem]
  exact h _ (by omega) (by omega)

section Words

variable {ι : Type*} {β : Type*} [DecidableEq ι] {slots : Nat → ι → β} {hist : List (ι → β)}

/-- Store one word in a slot. -/
def storeWord (slots : Nat → ι → β) (slot : Nat) (word : ι) (value : β) : Nat → ι → β :=
  Function.update slots slot (Function.update (slots slot) word value)

theorem storeWord_self (slots : Nat → ι → β) (slot : Nat) (word : ι) (value : β) :
    storeWord slots slot word value slot = Function.update (slots slot) word value :=
  Function.update_self ..

theorem storeWord_of_ne {slot slot' : Nat} (ne : slot' ≠ slot) (word : ι) (value : β) :
    storeWord slots slot word value slot' = slots slot' :=
  Function.update_of_ne ne ..

/-- Storing a word of a later entry keeps the window like storing all of it. -/
theorem Holds.storeWord (h : Holds n off slots hist lo) {i : Nat} (later : hist.length ≤ i)
    (lap : i < lo + n) (word : ι) (value : β) :
    Holds n off (storeWord slots ((i + off) % n) word value) hist lo :=
  h.update later lap _

/-- Store some words of an entry in a slot, one after the other. -/
def storeWords (slots : Nat → ι → β) (slot : Nat) (entry : ι → β) (words : List ι) :
    Nat → ι → β :=
  words.foldl (fun slots word => storeWord slots slot word (entry word)) slots

theorem storeWords_eq (slots : Nat → ι → β) (slot : Nat) (entry : ι → β) (words : List ι) :
    storeWords slots slot entry words =
      Function.update slots slot fun word =>
        if word ∈ words then entry word else slots slot word := by
  induction words generalizing slots with
  | nil =>
      simp only [List.not_mem_nil, if_false]
      exact (Function.update_eq_self slot slots).symm
  | cons first words ih =>
      change storeWords (storeWord slots slot first (entry first)) slot entry words = _
      rw [ih, storeWord_self, storeWord, Function.update_idem]
      refine congrArg (Function.update slots slot) ?_
      funext word
      by_cases same : word = first
      · subst same
        simp
      · simp [same]

/-- Storing all words of an entry, in any order, stores the entry. -/
theorem storeWords_of_forall {words : List ι} (all : ∀ word, word ∈ words)
    (slots : Nat → ι → β) (slot : Nat) (entry : ι → β) :
    storeWords slots slot entry words = Function.update slots slot entry := by
  simp [storeWords_eq, all]

end Words

section Lanes

variable {merge : α → α → α} {init : α} {r : Nat}

/-- The entries of a history that go to the slot of entry `r`: every `n`-th one. -/
def lane (n : Nat) (hist : List α) (r : Nat) : List α :=
  (hist.zipIdx.filter fun entry => entry.2 % n = r).map Prod.fst

theorem lane_concat (n : Nat) (hist : List α) (value : α) (r : Nat) :
    lane n (hist ++ [value]) r = lane n hist r ++ if hist.length % n = r then [value] else [] := by
  rw [lane, List.zipIdx_append, List.filter_append, List.map_append, List.zipIdx_singleton,
    Nat.zero_add]
  by_cases here : hist.length % n = r
  · simp [lane, here]
  · simp [lane, here]

/-- Each slot holds what merging the entries of its lane, one after the other, makes of its
first content. -/
def Merged (n off : Nat) (merge : α → α → α) (init : α) (slots : Nat → α) (hist : List α) :
    Prop :=
  ∀ r < n, slots ((r + off) % n) = (lane n hist r).foldl merge init

theorem Merged.nil (fresh : ∀ slot < n, slots slot = init) : Merged n off merge init slots [] :=
  fun _ inside => fresh _ (Nat.mod_lt _ (by omega))

/-- Storing the next entry by merging it into the content of its slot. -/
theorem Merged.push (h : Merged n off merge init slots hist) (value : α) :
    Merged n off merge init (Function.update slots ((hist.length + off) % n)
      (merge (slots ((hist.length + off) % n)) value)) (hist ++ [value]) := by
  intro r inside
  have lap : (hist.length % n + off) % n = (hist.length + off) % n := Nat.mod_add_mod ..
  rw [lane_concat]
  by_cases here : hist.length % n = r
  · subst here
    rw [if_pos rfl, lap, Function.update_self, List.foldl_append, ← h _ inside, lap]
    rfl
  · have ne : (r + off) % n ≠ (hist.length + off) % n := by
      intro same
      have cancelled : r % n = hist.length % n := Nat.ModEq.add_right_cancel' off same
      rw [Nat.mod_eq_of_lt inside] at cancelled
      exact here cancelled.symm
    rw [Function.update_of_ne ne, if_neg here, List.append_nil]
    exact h r inside

/-- If merging overwrites, the slot of the newest entry holds it. -/
theorem foldl_lane_last (init : α) (nonempty : hist ≠ []) :
    (lane n hist ((hist.length - 1) % n)).foldl (fun _ new => new) init =
      hist.getLast nonempty := by
  obtain ⟨older, newest, rfl⟩ := hist.eq_nil_or_concat.resolve_left nonempty
  simp [List.concat_eq_append, lane_concat]

end Lanes

end SlotRing
