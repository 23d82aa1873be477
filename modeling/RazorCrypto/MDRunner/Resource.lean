import Mathlib.Logic.Function.Basic
import RazorCrypto.Foundation.Transition

/-!
# Libraries and the instances created from them

`MDResource` holds the handle of a dynamic library and the instance that was created from it.
Objects are moved, assigned and destroyed in any order. The log records what happens to
handles and instances. Each opening of a library counts as a handle of its own.

The body of the destructor closes the library before the members are destroyed, and a move
assignment overwrites a handle without closing it.
-/

universe u v w

namespace RazorCrypto.MDRunner

open Transition

/-- What happens to a handle or to an instance. -/
inductive Event (H : Type u) (I : Type v)
  | opened (handle : H) (md : I)
  | stopped (md : I)
  | dlclosed (handle : H)
  | destroyed (md : I)

/-- `MDResource`. -/
structure MDResource (H : Type u) (I : Type v) where
  handle : Option H := none
  mdInstance : Option I := none

variable {O : Type w} {H : Type u} {I : Type v}

namespace MDResource

/-- What the destructor of the member `md_instance`, or an assignment to it, does. -/
def destroyInstance (md : Option I) : List (Event H I) := (md.map .destroyed).toList

/-- The two assignments of `main` that save an instance. -/
def fill (res : MDResource H I) (handle : H) (md : I) : MDResource H I × List (Event H I) :=
  ({ handle := some handle, mdInstance := some md }, destroyInstance res.mdInstance)

/-- The move constructor: the new object and the one that was moved from. -/
def moveConstruct (other : MDResource H I) : MDResource H I × MDResource H I :=
  ({ handle := other.handle, mdInstance := other.mdInstance },
    { handle := none, mdInstance := none })

/-- The move assignment from another object. -/
def moveAssign (this other : MDResource H I) :
    (MDResource H I × MDResource H I) × List (Event H I) :=
  (({ handle := other.handle, mdInstance := other.mdInstance },
    { handle := none, mdInstance := none }), destroyInstance this.mdInstance)

/-- The destructor: its body, and then the members. -/
def destruct (res : MDResource H I) : List (Event H I) :=
  (res.mdInstance.map .stopped).toList ++ (res.handle.map .dlclosed).toList ++
    destroyInstance res.mdInstance

end MDResource

/-- The objects that exist, and the log. -/
structure State (O : Type w) (H : Type u) (I : Type v) where
  objects : O → Option (MDResource H I)
  log : List (Event H I)

/-- What a program does with them. -/
inductive Op (O : Type w) (H : Type u) (I : Type v)
  | construct (a : O)
  | fill (a : O) (handle : H) (md : I)
  | moveConstruct (b a : O)
  | moveAssign (b a : O)
  | destruct (a : O)

namespace State

/-- No objects, and nothing has happened. -/
def start : State O H I := ⟨fun _ => none, []⟩

variable [DecidableEq O]

/-- Object `a` becomes `res`, or ceases to exist. -/
def set (s : State O H I) (a : O) (res : Option (MDResource H I)) : State O H I :=
  { s with objects := Function.update s.objects a res }

/-- More has happened. -/
def emit (s : State O H I) (events : List (Event H I)) : State O H I :=
  { s with log := s.log ++ events }

end State

/-- One operation. A new object has no name in use, and a handle that is filled in and its
instance are new. -/
inductive Step [DecidableEq O] : State O H I → Op O H I → State O H I → Prop
  | construct {s a} (new : s.objects a = none) : Step s (.construct a) (s.set a (some {}))
  | fill {s a res handle md} (object : s.objects a = some res)
      (fresh : ∀ j, .opened handle j ∉ s.log) (created : ∀ h, .opened h md ∉ s.log) :
      Step s (.fill a handle md)
        ((s.set a (some (res.fill handle md).1)).emit
          (.opened handle md :: (res.fill handle md).2))
  | moveConstruct {s b a other} (new : s.objects b = none) (object : s.objects a = some other) :
      Step s (.moveConstruct b a)
        ((s.set b (some other.moveConstruct.1)).set a (some other.moveConstruct.2))
  | selfAssign {s a res} (object : s.objects a = some res) : Step s (.moveAssign a a) s
  | moveAssign {s b a this other} (ne : b ≠ a) (target : s.objects b = some this)
      (object : s.objects a = some other) :
      Step s (.moveAssign b a)
        (((s.set b (some (this.moveAssign other).1.1)).set a
          (some (this.moveAssign other).1.2)).emit (this.moveAssign other).2)
  | destruct {s a res} (object : s.objects a = some res) :
      Step s (.destruct a) ((s.set a none).emit res.destruct)

/-- A handle that is closed once, after its instance was stopped and destroyed. -/
def Released (log : List (Event H I)) (handle : H) (md : I) : Prop :=
  ∃ before after, log = before ++ .dlclosed handle :: after ∧
    .dlclosed handle ∉ before ∧ .dlclosed handle ∉ after ∧
    .stopped md ∈ before ∧ .destroyed md ∈ before

/-- Each library that was opened is either still open and held by an object, or released. -/
def Owns (s : State O H I) : Prop :=
  ∀ handle md, .opened handle md ∈ s.log →
    ((∃ a, s.objects a = some ⟨some handle, some md⟩) ∧ .dlclosed handle ∉ s.log) ∨
      Released s.log handle md

/-- An operation that neither destroys nor overwrites an object with a handle. -/
def Keeping [DecidableEq O] (s : State O H I) : Op O H I → Prop
  | .construct _ | .moveConstruct _ _ => True
  | .fill a _ _ | .destruct a => ∀ res ∈ s.objects a, res.handle = none
  | .moveAssign b a => b = a ∨ ∀ this ∈ s.objects b, this.handle = none

/-! ## As long as nothing is released -/

/-- All that happened are openings, and each library is held by one object. -/
structure Kept (s : State O H I) : Prop where
  opened : ∀ e ∈ s.log, ∃ handle md, e = .opened handle md
  paired : ∀ a res, s.objects a = some res →
    res = {} ∨ ∃ handle md, res = ⟨some handle, some md⟩ ∧ .opened handle md ∈ s.log
  unique : ∀ a b handle i j, s.objects a = some ⟨some handle, some i⟩ →
    s.objects b = some ⟨some handle, some j⟩ → a = b
  held : ∀ handle md, .opened handle md ∈ s.log → ∃ a, s.objects a = some ⟨some handle, some md⟩

variable {s t : State O H I} {op : Op O H I} {a b : O} {handle : H} {md : I}
variable {events : List (Event H I)} {res other : MDResource H I}

namespace Kept

theorem start : Kept (State.start : State O H I) := ⟨nofun, nofun, nofun, nofun⟩

/-- Nothing is closed. -/
theorem not_dlclosed (h : Kept s) (handle : H) : .dlclosed handle ∉ s.log := by
  intro closed
  obtain ⟨_, _, event⟩ := h.opened _ closed
  cases event

theorem not_destroyed (h : Kept s) (md : I) : .destroyed md ∉ s.log := by
  intro destroyed
  obtain ⟨_, _, event⟩ := h.opened _ destroyed
  cases event

theorem owns (h : Kept s) : Owns s :=
  fun handle md opened => .inl ⟨h.held handle md opened, h.not_dlclosed handle⟩

/-- An object without a handle has no instance either. -/
theorem eq_empty (h : Kept s) (object : s.objects a = some res) (none : res.handle = none) :
    res = {} := by
  obtain empty | ⟨handle, md, rfl, -⟩ := h.paired a res object
  · exact empty
  · cases none

/-- An object with a handle has its instance. -/
theorem eq_filled (h : Kept s) (object : s.objects a = some res)
    (some_ : res.handle = some handle) :
    ∃ md, res = ⟨some handle, some md⟩ ∧ .opened handle md ∈ s.log := by
  obtain rfl | ⟨handle, md, rfl, opened⟩ := h.paired a res object
  · cases some_
  · cases some_
    exact ⟨md, rfl, opened⟩

/-- No object has a handle that is yet to be opened. -/
theorem ne_of_fresh (h : Kept s) (fresh : ∀ j, .opened handle j ∉ s.log) (b : O) (i : I) :
    s.objects b ≠ some ⟨some handle, some i⟩ := by
  intro found
  obtain ⟨j, -, before⟩ := h.eq_filled found rfl
  exact fresh j before

end Kept

namespace State

@[simp] theorem emit_log : (s.emit events).log = s.log ++ events := rfl

@[simp] theorem emit_nil : s.emit [] = s := by
  unfold emit
  rw [List.append_nil]

@[simp] theorem emit_objects : (s.emit events).objects = s.objects := rfl

variable [DecidableEq O] {r : Option (MDResource H I)}

@[simp] theorem set_log : (s.set a r).log = s.log := rfl

@[simp] theorem set_self : (s.set a r).objects a = r := Function.update_self ..

theorem set_of_ne (ne : b ≠ a) : (s.set a r).objects b = s.objects b :=
  Function.update_of_ne ne ..

variable {c : O}

/-- The objects after a move from `a` to `b`. -/
theorem objects_move (object : s.objects a = some other) (c : O) :
    ((s.set b (some other)).set a (some {})).objects c =
      if c = a then some {} else if c = b then s.objects a else s.objects c := by
  by_cases source : c = a
  · rw [if_pos source, source, set_self]
  · rw [if_neg source, set_of_ne source]
    by_cases dest : c = b
    · rw [if_pos dest, dest, set_self, object]
    · rw [if_neg dest, set_of_ne dest]

/-- Who holds a library after a move held it before, or has it from `a`. -/
theorem holder_move (object : s.objects a = some other)
    (holds : ((s.set b (some other)).set a (some {})).objects c = some ⟨some handle, some md⟩) :
    s.objects (if c = b then a else c) = some ⟨some handle, some md⟩ ∧ c ≠ a := by
  rw [objects_move object] at holds
  by_cases source : c = a
  · rw [if_pos source] at holds
    cases holds
  · rw [if_neg source] at holds
    refine ⟨?_, source⟩
    by_cases dest : c = b
    · rwa [if_pos dest] at holds ⊢
    · rwa [if_neg dest] at holds ⊢

end State

namespace Kept

variable [DecidableEq O]

/-- An object that holds nothing comes, goes or stays. -/
theorem set_empty (h : Kept s) (before : ∀ r ∈ s.objects a, r = {})
    {r : Option (MDResource H I)} (after : ∀ res ∈ r, res = {}) : Kept (s.set a r) := by
  have here : ∀ b handle md, (s.set a r).objects b = some ⟨some handle, some md⟩ ↔
      s.objects b = some ⟨some handle, some md⟩ := by
    intro b handle md
    by_cases same : b = a
    · subst same
      rw [State.set_self]
      refine iff_of_false ?_ ?_
      · intro holds
        cases after _ holds
      · intro holds
        cases before _ holds
    · rw [State.set_of_ne same]
  refine ⟨h.opened, ?_, ?_, ?_⟩
  · intro b res object
    by_cases same : b = a
    · subst same
      rw [State.set_self] at object
      exact .inl (after res object)
    · rw [State.set_of_ne same] at object
      exact h.paired b res object
  · intro b c handle i j first second
    exact h.unique b c handle i j ((here ..).mp first) ((here ..).mp second)
  · intro handle md opened
    obtain ⟨b, holds⟩ := h.held handle md opened
    exact ⟨b, (here ..).mpr holds⟩

/-- A new library is filled into an object that holds nothing. -/
theorem fill (h : Kept s) (object : s.objects a = some {})
    (fresh : ∀ j, .opened handle j ∉ s.log) :
    Kept ((s.set a (some ⟨some handle, some md⟩)).emit [.opened handle md]) := by
  refine ⟨?_, ?_, ?_, ?_⟩
  · intro e happened
    obtain earlier | now := List.mem_append.mp happened
    · exact h.opened e earlier
    · exact ⟨handle, md, List.mem_singleton.mp now⟩
  · intro b res found
    by_cases same : b = a
    · subst same
      simp only [State.emit_objects, State.set_self, Option.some.injEq] at found
      exact .inr ⟨handle, md, found.symm, by simp⟩
    · rw [State.emit_objects, State.set_of_ne same] at found
      obtain empty | ⟨h', i, shape, before⟩ := h.paired b res found
      · exact .inl empty
      · exact .inr ⟨h', i, shape, List.mem_append_left _ before⟩
  · -- another object has an older handle
    have older := h.ne_of_fresh fresh
    intro b c h' i j first second
    rw [State.emit_objects] at first second
    by_cases left : b = a
    · by_cases right : c = a
      · rw [left, right]
      · rw [left, State.set_self] at first
        rw [State.set_of_ne right] at second
        cases first
        exact absurd second (older c j)
    · rw [State.set_of_ne left] at first
      by_cases right : c = a
      · rw [right, State.set_self] at second
        cases second
        exact absurd first (older b i)
      · rw [State.set_of_ne right] at second
        exact h.unique b c h' i j first second
  · intro h' i happened
    obtain earlier | now := List.mem_append.mp happened
    · obtain ⟨b, holds⟩ := h.held h' i earlier
      have ne : b ≠ a := by
        rintro rfl
        rw [object] at holds
        cases holds
      exact ⟨b, by rwa [State.emit_objects, State.set_of_ne ne]⟩
    · cases List.mem_singleton.mp now
      exact ⟨a, by rw [State.emit_objects, State.set_self]⟩

/-- What one object holds goes to another that holds nothing. -/
theorem move (h : Kept s) (ne : b ≠ a) (target : ∀ r ∈ s.objects b, r = {})
    (object : s.objects a = some other) :
    Kept ((s.set b (some other)).set a (some {})) := by
  have objects := State.objects_move (b := b) object
  refine ⟨h.opened, ?_, ?_, ?_⟩
  · intro c res found
    rw [objects] at found
    split at found
    · cases found
      exact .inl rfl
    · split at found
      · exact h.paired a res found
      · exact h.paired c res found
  · intro c d handle i j first second
    obtain ⟨first, fromC⟩ := State.holder_move object first
    obtain ⟨second, fromD⟩ := State.holder_move object second
    have same := h.unique _ _ handle i j first second
    by_cases left : c = b
    · by_cases right : d = b
      · rw [left, right]
      · rw [if_pos left, if_neg right] at same
        exact absurd same.symm fromD
    · by_cases right : d = b
      · rw [if_neg left, if_pos right] at same
        exact absurd same fromC
      · rwa [if_neg left, if_neg right] at same
  · intro handle md opened
    obtain ⟨c, holds⟩ := h.held handle md opened
    by_cases source : c = a
    · refine ⟨b, ?_⟩
      rw [objects, if_neg ne, if_pos rfl, ← source, holds]
    · refine ⟨c, ?_⟩
      have dest : c ≠ b := by
        rintro rfl
        cases target _ holds
      rw [objects, if_neg source, if_neg dest, holds]

/-- Keeping operations keep it. -/
theorem step (h : Kept s) (taken : Step s op t) (keeping : Keeping s op) : Kept t := by
  cases taken with
  | construct new =>
      refine h.set_empty ?_ (fun _ same => (Option.some.inj same).symm)
      rw [new]
      exact nofun
  | fill object fresh created =>
      cases h.eq_empty object (keeping _ object)
      exact h.fill object fresh
  | @moveConstruct b a _ new object =>
      have ne : b ≠ a := by
        rintro rfl
        rw [new] at object
        cases object
      refine h.move ne ?_ object
      rw [new]
      exact nofun
  | selfAssign object => exact h
  | moveAssign ne target object =>
      cases h.eq_empty target (keeping.resolve_left ne _ target)
      have moved := h.move ne (fun r found => Option.some.inj (found.symm.trans target)) object
      simpa [MDResource.moveAssign, MDResource.destroyInstance] using moved
  | destruct object =>
      cases h.eq_empty object (keeping _ object)
      have gone : Kept (s.set _ none) :=
        h.set_empty (fun r found => Option.some.inj (found.symm.trans object)) nofun
      simpa [MDResource.destruct, MDResource.destroyInstance] using gone

end Kept

theorem Kept.of_run [DecidableEq O] {ops : List (Op O H I)}
    (run : Run (fun s op t => Step s op t ∧ Keeping s op) State.start ops t) : Kept t :=
  run.invariant (I := fun _ s => Kept s) Kept.start fun h taken => h.step taken.1 taken.2

/-! ## Once something is released -/

/-- Some object has the handle. -/
def Holds (s : State O H I) (handle : H) : Prop :=
  ∃ a res, s.objects a = some res ∧ res.handle = some handle

/-- The handle is lost, and at no closing of it its instance had been destroyed. -/
structure Broken (s : State O H I) (handle : H) (md : I) : Prop where
  opened : .opened handle md ∈ s.log
  lost : ¬ Holds s handle
  wrong : ∀ before after, s.log = before ++ .dlclosed handle :: after → .destroyed md ∉ before

theorem Broken.not_owns (h : Broken s handle md) : ¬ Owns s := by
  intro owns
  obtain ⟨⟨a, holds⟩, -⟩ | ⟨before, after, log, -, -, -, destroyed⟩ := owns handle md h.opened
  · exact h.lost ⟨a, _, holds, rfl⟩
  · exact h.wrong before after log destroyed

/-- In a state without closings, new events only matter from their first closing on. -/
theorem Kept.wrong (h : Kept s) {before after : List (Event H I)}
    (split : s.log ++ events = before ++ .dlclosed handle :: after) :
    ∃ more, before = s.log ++ more ∧ events = more ++ .dlclosed handle :: after := by
  obtain later | ⟨rest, -, old⟩ := append_eq_split split
  · exact later
  · exact absurd (old ▸ List.mem_append_right _ List.mem_cons_self) (h.not_dlclosed handle)

theorem Kept.not_split (h : Kept s) (unclosed : .dlclosed handle ∉ events)
    (before after : List (Event H I)) :
    s.log ++ events ≠ before ++ .dlclosed handle :: after := by
  intro split
  obtain ⟨more, -, rfl⟩ := h.wrong split
  simp at unclosed

/-- The holder of a library is the only one. -/
theorem Kept.only (h : Kept s) (object : s.objects a = some ⟨some handle, some md⟩)
    (found : s.objects b = some res) (same : res.handle = some handle) : b = a := by
  obtain ⟨md', rfl, -⟩ := h.eq_filled found same
  exact h.unique b a handle md' md found object

theorem MDResource.dlclosed_not_mem_destroyInstance (r : Option I) (handle : H) :
    .dlclosed handle ∉ destroyInstance r := by
  cases r with
  | none => exact List.not_mem_nil
  | some md => simp [destroyInstance]

/-- In the destructor only the stopping comes before the closing. -/
theorem MDResource.destruct_split {before after : List (Event H I)}
    (split : (⟨some handle, some md⟩ : MDResource H I).destruct =
      before ++ .dlclosed handle :: after) : before = [.stopped md] := by
  have body : (⟨some handle, some md⟩ : MDResource H I).destruct =
      [.stopped md, .dlclosed handle, .destroyed md] := rfl
  rw [body] at split
  cases before with
  | nil => cases split
  | cons e before =>
      cases before with
      | nil =>
          have first : .stopped md = e := (List.cons.inj split).1
          rw [first]
      | cons e' before =>
          have last : [.destroyed md] = before ++ .dlclosed handle :: after :=
            (List.cons.inj (List.cons.inj split).2).2
          have closed : .dlclosed handle ∈ before ++ .dlclosed handle :: after := by simp
          rw [← last] at closed
          simp at closed

theorem MDResource.dlclosed_mem_destruct (res : MDResource H I) (handle : H) :
    .dlclosed handle ∈ res.destruct → res.handle = some handle := by
  obtain ⟨handle', md'⟩ := res
  cases handle' <;> cases md' <;> simp [destruct, destroyInstance, eq_comm]

variable [DecidableEq O]

/-- An object after some objects were set. -/
theorem State.holds_set {r : Option (MDResource H I)} (holds : Holds (s.set a r) handle) :
    (∃ res ∈ r, res.handle = some handle) ∨
      ∃ b res, b ≠ a ∧ s.objects b = some res ∧ res.handle = some handle := by
  obtain ⟨b, res, object, same⟩ := holds
  by_cases here : b = a
  · subst here
    rw [State.set_self] at object
    exact .inl ⟨res, object, same⟩
  · rw [State.set_of_ne here] at object
    exact .inr ⟨b, res, here, object, same⟩

/-- A move brings no handle that was not held. -/
theorem State.holds_move (object : s.objects a = some other)
    (holds : Holds ((s.set b (some other)).set a (some {})) handle) : Holds s handle := by
  obtain ⟨res, empty, same⟩ | ⟨c, res, -, found, same⟩ := State.holds_set holds
  · cases empty
    cases same
  · obtain ⟨res', moved, same'⟩ | ⟨d, res', -, found', same'⟩ :=
      State.holds_set ⟨c, res, found, same⟩
    · cases moved
      exact ⟨a, other, object, same'⟩
    · exact ⟨d, res', found', same'⟩

/-- No operation closes a handle that no object has, or brings back one that was lost. -/
theorem Step.effect (taken : Step s op t) : ∃ events, t.log = s.log ++ events ∧
    (∀ handle, .dlclosed handle ∈ events → Holds s handle) ∧
    ∀ handle, Holds t handle → Holds s handle ∨ ∀ j, .opened handle j ∉ s.log := by
  cases taken with
  | construct new =>
      refine ⟨[], (List.append_nil _).symm, nofun, ?_⟩
      intro handle holds
      obtain ⟨res, empty, same⟩ | ⟨b, res, -, object, same⟩ := State.holds_set holds
      · cases empty
        cases same
      · exact .inl ⟨b, res, object, same⟩
  | @fill a res handle md object fresh created =>
      refine ⟨_, rfl, ?_, ?_⟩
      · intro handle' closed
        obtain opened | destroyed := List.mem_cons.mp closed
        · cases opened
        · exact absurd destroyed (MDResource.dlclosed_not_mem_destroyInstance _ _)
      · intro handle' holds
        obtain ⟨res', filled, same⟩ | ⟨b, res', -, object', same⟩ := State.holds_set holds
        · cases filled
          cases same
          exact .inr fresh
        · exact .inl ⟨b, res', object', same⟩
  | moveConstruct new object =>
      refine ⟨[], (List.append_nil _).symm, nofun, ?_⟩
      exact fun handle holds => .inl (State.holds_move object holds)
  | selfAssign object => exact ⟨[], (List.append_nil _).symm, nofun, fun _ holds => .inl holds⟩
  | moveAssign ne target object =>
      refine ⟨_, rfl, ?_, ?_⟩
      · intro handle closed
        exact absurd closed (MDResource.dlclosed_not_mem_destroyInstance _ _)
      · exact fun handle holds => .inl (State.holds_move object holds)
  | @destruct a res object =>
      refine ⟨_, rfl, ?_, ?_⟩
      · intro handle closed
        exact ⟨a, res, object, res.dlclosed_mem_destruct handle closed⟩
      · intro handle holds
        obtain ⟨res', gone, -⟩ | ⟨b, res', -, object', same⟩ := State.holds_set holds
        · cases gone
        · exact .inl ⟨b, res', object', same⟩

/-- What is wrong stays wrong. -/
theorem Broken.step (h : Broken s handle md) (taken : Step s op t) : Broken t handle md := by
  obtain ⟨events, log, closes, holds⟩ := taken.effect
  refine ⟨log ▸ List.mem_append_left _ h.opened, ?_, ?_⟩
  · intro back
    obtain before | fresh := holds handle back
    · exact h.lost before
    · exact fresh md h.opened
  · intro before after split
    have unclosed : .dlclosed handle ∉ events := fun closed => h.lost (closes handle closed)
    rw [log] at split
    obtain ⟨more, -, new⟩ | ⟨rest, -, old⟩ := append_eq_split split
    · exact absurd (new ▸ List.mem_append_right _ List.mem_cons_self) unclosed
    · exact h.wrong before rest old

namespace Kept

omit [DecidableEq O] in
/-- An object with a handle holds a library. -/
theorem holder (h : Kept s) (object : s.objects a = some res)
    (not : ¬ ∀ r ∈ s.objects a, r.handle = none) :
    ∃ handle md, res = ⟨some handle, some md⟩ ∧ .opened handle md ∈ s.log := by
  cases shape : res.handle with
  | none =>
      refine absurd ?_ not
      intro r found
      rwa [Option.some.inj (object.symm.trans found)] at shape
  | some handle =>
      obtain ⟨md, same, opened⟩ := h.eq_filled object shape
      exact ⟨handle, md, same, opened⟩

/-- A second filling loses the first library. -/
theorem broken_fill {handle' : H} {md' : I} (h : Kept s)
    (object : s.objects a = some ⟨some handle, some md⟩) (opened : .opened handle md ∈ s.log)
    (fresh : ∀ j, .opened handle' j ∉ s.log) :
    Broken ((s.set a (some ⟨some handle', some md'⟩)).emit [.opened handle' md', .destroyed md])
      handle md := by
  refine ⟨List.mem_append_left _ opened, ?_, ?_⟩
  · intro holds
    obtain ⟨res, filled, same⟩ | ⟨b, res, ne, found, same⟩ := State.holds_set holds
    · cases filled
      cases same
      exact fresh md opened
    · exact ne (h.only object found same)
  · exact fun before after split => absurd split (h.not_split (by simp) before after)

/-- A move assignment loses what its target held. -/
theorem broken_moveAssign (h : Kept s) (ne : b ≠ a)
    (target : s.objects b = some ⟨some handle, some md⟩) (opened : .opened handle md ∈ s.log)
    (object : s.objects a = some other) :
    Broken (((s.set b (some other)).set a (some {})).emit [.destroyed md]) handle md := by
  refine ⟨List.mem_append_left _ opened, ?_, ?_⟩
  · intro holds
    obtain ⟨res, empty, same⟩ | ⟨c, res, source, found, same⟩ := State.holds_set holds
    · cases empty
      cases same
    · by_cases dest : c = b
      · subst dest
        rw [State.set_self] at found
        cases found
        exact ne (h.only target object same).symm
      · rw [State.set_of_ne dest] at found
        exact dest (h.only target found same)
  · exact fun before after split => absurd split (h.not_split (by simp) before after)

/-- The destructor closes the library before the instance is destroyed. -/
theorem broken_destruct (h : Kept s) (object : s.objects a = some ⟨some handle, some md⟩)
    (opened : .opened handle md ∈ s.log) :
    Broken ((s.set a none).emit (MDResource.destruct ⟨some handle, some md⟩)) handle md := by
  refine ⟨List.mem_append_left _ opened, ?_, ?_⟩
  · intro holds
    obtain ⟨res, gone, -⟩ | ⟨b, res, ne, found, same⟩ := State.holds_set holds
    · cases gone
    · exact ne (h.only object found same)
  · intro before after split
    obtain ⟨more, rfl, new⟩ := h.wrong split
    have order : more = [.stopped md] := MDResource.destruct_split new
    rw [order]
    simp [h.not_destroyed]

/-- An operation that is not keeping breaks the rule for good. -/
theorem broken (h : Kept s) (taken : Step s op t) (not : ¬ Keeping s op) :
    ∃ handle md, Broken t handle md := by
  cases taken with
  | construct new => exact absurd trivial not
  | moveConstruct new object => exact absurd trivial not
  | selfAssign object => exact absurd (.inl rfl) not
  | fill object fresh created =>
      obtain ⟨handle, md, rfl, opened⟩ := h.holder object not
      exact ⟨handle, md, h.broken_fill object opened fresh⟩
  | moveAssign ne target object =>
      obtain ⟨handle, md, rfl, opened⟩ := h.holder target fun all => not (.inr all)
      exact ⟨handle, md, h.broken_moveAssign ne target opened object⟩
  | destruct object =>
      obtain ⟨handle, md, rfl, opened⟩ := h.holder object not
      exact ⟨handle, md, h.broken_destruct object opened⟩

end Kept

/-- Up to the first operation that is not keeping, and from then on. -/
theorem keeping_or_broken {ops : List (Op O H I)} (run : Run Step State.start ops t) :
    Run (fun s op t => Step s op t ∧ Keeping s op) State.start ops t ∨
      ∃ handle md, Broken t handle md := by
  induction run with
  | refl => exact .inl .refl
  | @snoc es s op t _ taken ih =>
      obtain run | ⟨handle, md, broken⟩ := ih
      · by_cases keeping : Keeping s op
        · exact .inl (run.snoc ⟨taken, keeping⟩)
        · exact .inr ((Kept.of_run run).broken taken keeping)
      · exact .inr ⟨handle, md, broken.step taken⟩

/-- In every run the rule is kept exactly as long as no object with a handle is destroyed or
overwritten. -/
theorem owns_iff (ops : List (Op O H I)) (t : State O H I) (run : Run Step State.start ops t) :
    Owns t ↔ Run (fun s op t => Step s op t ∧ Keeping s op) State.start ops t := by
  constructor
  · intro owns
    obtain keeping | ⟨handle, md, broken⟩ := keeping_or_broken run
    · exact keeping
    · exact absurd owns broken.not_owns
  · exact fun run => (Kept.of_run run).owns

/-- One object with a library and its instance. -/
def filledOnce : State Nat Nat Nat :=
  ((State.start.set 0 (some {})).set 0 (some ⟨some 7, some 8⟩)).emit [.opened 7 8]

theorem run_filledOnce : Run (fun s op t => Step s op t ∧ Keeping s op) State.start
    [.construct 0, .fill 0 7 8] filledOnce := by
  have construct : Step (State.start : State Nat Nat Nat) (.construct 0)
      (State.start.set 0 (some {})) := .construct rfl
  have fill : Step (State.start.set 0 (some {})) (.fill 0 7 8) filledOnce :=
    .fill State.set_self nofun nofun
  refine (Run.single ⟨construct, trivial⟩).snoc ⟨fill, ?_⟩
  intro res found
  cases found
  rfl

/-- The object is moved to another one, and what is left of it is destroyed. -/
theorem owns_iff_movedOut : ∃ t : State Nat Nat Nat,
    Run Step State.start [.construct 0, .fill 0 7 8, .moveConstruct 1 0, .destruct 0] t ∧
      t.objects 0 = none ∧ t.objects 1 = some ⟨some 7, some 8⟩ ∧ Owns t := by
  let moved := (filledOnce.set 1 (some ⟨some 7, some 8⟩)).set 0 (some {})
  have move : Step filledOnce (.moveConstruct 1 0) moved := .moveConstruct rfl rfl
  have destruct : Step moved (.destruct 0)
      ((moved.set 0 none).emit (MDResource.destruct ⟨none, none⟩)) := .destruct rfl
  have empty : Keeping moved (.destruct 0) := by
    intro res found
    cases found
    rfl
  have keeping := (run_filledOnce.snoc ⟨move, trivial⟩).snoc ⟨destruct, empty⟩
  have run := keeping.map (f := id) fun taken => taken.1
  exact ⟨_, run, rfl, rfl, (owns_iff _ _ run).mpr keeping⟩

/-- The destructor of a filled object closes the library under a living instance. -/
theorem not_owns :
    ¬ (∀ (ops : List (Op Nat Nat Nat)) (t : State Nat Nat Nat),
      Run Step State.start ops t → Owns t) ∧
    (⟨some 7, some 8⟩ : MDResource Nat Nat).destruct = [.stopped 8, .dlclosed 7, .destroyed 8] := by
  refine ⟨?_, rfl⟩
  intro all
  have filled : Run Step State.start [.construct 0, .fill 0 7 8] filledOnce := by
    simpa using run_filledOnce.map (f := id) fun taken => taken.1
  have destruct : Step filledOnce (.destruct 0) _ := .destruct rfl
  have kept : Kept filledOnce := .of_run run_filledOnce
  obtain ⟨handle, md, broken⟩ := kept.broken destruct (fun keeping => nomatch keeping _ rfl)
  exact broken.not_owns (all _ _ (filled.snoc destruct))

end RazorCrypto.MDRunner
