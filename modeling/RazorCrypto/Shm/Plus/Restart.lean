import RazorCrypto.Foundation.Transition
import RazorCrypto.Shm.Plus.Serving

/-!
# Restarted feeds and the readers of their files

`create_shm_ptr` removes the name of the shared memory before it opens it, so that each creation
leads the name to a new file. A process that mapped an older file keeps it. `get_or_create_shm`
of an `md_manager` maps the file that the name leads to when a process first asks for it, and
returns the same store ever after.

The world here is that of one name: the files that it led to, each with the object of the
process that created it, and the store that each `md_manager` keeps. The runs are those in which
creating a store, attaching to one and updating one do not overlap: each of them is a single step.
Each creation has room for its own instruments only. A process that asks before there is a file
exits.
-/

universe u v

namespace RazorCrypto.Shm.ShmMdPlus

open Transition

/-- What processes do with the name: one creates a store, the creator of file `k` calls
`on_rtn_data`, or a process asks its `md_manager` for the store. -/
inductive FileEvent (P : Type v) (α : Type u)
  | created (request : Request)
  | updated (k : Nat) (instrumentID : Name) (newData : α)
  | asked (p : P)

/-- The files that the name led to, the current one last, and the entry of each `md_manager` with
the number of its file. -/
structure World (P : Type v) (α : Type u) where
  files : List (ShmMdPlus α)
  mCon : P → Option (Nat × ShmMdPlus α)

variable {P : Type v} {α : Type u} [MarketData α]

namespace World

/-- No file, and nobody has asked. -/
def empty : World P α := ⟨[], fun _ => none⟩

variable [DecidableEq P]

/-- One step. `get_or_create_shm` looks for an entry first, and otherwise attaches a new object to
the file that the name leads to. -/
inductive Step : World P α → FileEvent P α → World P α → Prop
  | created {w} (page : Region α) (request : Request) : Step w (.created request)
      { w with files := w.files ++
        [start page request.instruments.length request.mdBuffNum request.instruments] }
  | updated {w k s} (instrumentID : Name) (newData : α) (file : w.files[k]? = some s) :
      Step w (.updated k instrumentID newData)
        { w with files := w.files.set k (s.onRtnData instrumentID newData none).1 }
  | cached {w p entry} (found : w.mCon p = some entry) : Step w (.asked p) w
  | attached {w p s reader} (page : Region α) (fuel : Nat) (absent : w.mCon p = none)
      (last : w.files.getLast? = some s)
      (opened : (new page).getShm s.shm s.mShmSize fuel = some reader) : Step w (.asked p)
        { w with mCon := Function.update w.mCon p (some (w.files.length - 1, reader)) }

end World

section
omit [MarketData α]

/-- The request of a creation. -/
def FileEvent.request? : FileEvent P α → Option Request
  | .created request => some request
  | _ => none

/-- The update that the creator of file `k` offers, under its key. -/
def FileEvent.offer? (k : Nat) : FileEvent P α → Option (UInt64 × α)
  | .updated j instrumentID newData =>
    if j = k then some (comHash (cStr instrumentID), newData) else none
  | _ => none

/-- The requests of the creations, in order. -/
def requests (events : List (FileEvent P α)) : List Request :=
  events.filterMap FileEvent.request?

/-- The updates that the creator of file `k` offered. -/
def offers (k : Nat) (events : List (FileEvent P α)) : List (UInt64 × α) :=
  events.filterMap (FileEvent.offer? k)

theorem requests_concat (events : List (FileEvent P α)) (e : FileEvent P α) :
    requests (events ++ [e]) = requests events ++ e.request?.toList := by
  rw [requests, List.filterMap_append]
  cases e <;> rfl

theorem offers_concat (k : Nat) (events : List (FileEvent P α)) (e : FileEvent P α) :
    offers k (events ++ [e]) = offers k events ++ (e.offer? k).toList := by
  rw [offers, List.filterMap_append, List.filterMap_cons]
  cases e.offer? k <;> rfl

end

/-- What a reader finds for a request in the region of its file, after these updates. -/
structure Reads (request : Request) (offered : List (UInt64 × α)) (reader : ShmMdPlus α) :
    Prop where
  newest : ∀ id ∈ request.instruments,
    reader.getCurMd id = some (latest offered (comHash id))
  counts : ∀ id ∈ request.instruments,
    reader.getUpdateNum id = (history offered (comHash id)).length
  others : ∀ id, comHash id ∉ request.instruments.map comHash → reader.getCurMd id = none

/-! ## The invariant -/

variable {events before after : List (FileEvent P α)} {w w' : World P α} {e : FileEvent P α} {p : P}
  {k : Nat} {request : Request} {s reader : ShmMdPlus α}

/-- A reader attached to file `k` at some time. -/
def AttachedTo (request : Request) (reader : ShmMdPlus α) : Prop :=
  ∃ offered s page shmSize fuel, Serves request.instruments request.mdBuffNum offered s ∧
    (new page).getShm s.shm shmSize fuel = some reader

/-- Each file serves its request with the updates of its creator, and each entry belongs to a
reader that attached to its file. -/
structure Kept (events : List (FileEvent P α)) (w : World P α) : Prop where
  length : w.files.length = (requests events).length
  serves : ∀ k request s, (requests events)[k]? = some request → w.files[k]? = some s →
    Serves request.instruments request.mdBuffNum (offers k events) s
  unoffered : ∀ k, w.files.length ≤ k → offers k events = []
  entries : ∀ p k reader, w.mCon p = some (k, reader) →
    ∃ request, (requests events)[k]? = some request ∧ AttachedTo request reader

namespace Kept

theorem empty : Kept ([] : List (FileEvent P α)) World.empty :=
  ⟨rfl, nofun, fun _ _ => rfl, nofun⟩

theorem created (h : Kept events w) (page : Region α) (request : Request) :
    Kept (events ++ [.created request]) { w with files := w.files ++
      [start page request.instruments.length request.mdBuffNum request.instruments] } := by
  have requested : requests (events ++ [.created request]) = requests events ++ [request] :=
    requests_concat events _
  have offered : ∀ k, offers k (events ++ [.created request]) = offers k events := fun k =>
    (offers_concat k events _).trans (List.append_nil _)
  refine ⟨?_, fun k request' s asked file => ?_, fun k beyond => ?_, fun p k reader entry => ?_⟩
  · simp [requested, h.length]
  · rw [requested] at asked
    rw [offered]
    by_cases old : k < w.files.length
    · rw [List.getElem?_append_left (h.length ▸ old)] at asked
      rw [List.getElem?_append_left old] at file
      exact h.serves k request' s asked file
    · have new : k = w.files.length := by
        have inside := (List.getElem?_eq_some_iff.mp file).1
        simp only [List.length_append, List.length_singleton] at inside
        omega
      subst new
      rw [List.getElem?_append_right (Nat.le_refl _), Nat.sub_self] at file
      rw [h.length, List.getElem?_append_right (Nat.le_refl _), Nat.sub_self] at asked
      obtain rfl := Option.some.inj file
      obtain rfl := Option.some.inj asked
      rw [h.unoffered _ (Nat.le_refl _)]
      exact Serves.start page request.count request.blocks' request.distinct
  · rw [offered]
    rw [List.length_append] at beyond
    exact h.unoffered k (by omega)
  · obtain ⟨request', asked, attached⟩ := h.entries p k reader entry
    rw [requested]
    have inside := (List.getElem?_eq_some_iff.mp asked).1
    exact ⟨request', (List.getElem?_append_left inside).trans asked, attached⟩

theorem updated (h : Kept events w) (instrumentID : Name) (newData : α)
    (file : w.files[k]? = some s) : Kept (events ++ [.updated k instrumentID newData])
      { w with files := w.files.set k (s.onRtnData instrumentID newData none).1 } := by
  have requested : requests (events ++ [.updated k instrumentID newData]) = requests events :=
    (requests_concat events _).trans (List.append_nil _)
  have own : offers k (events ++ [.updated k instrumentID newData]) =
      offers k events ++ [(comHash (cStr instrumentID), newData)] := by
    rw [offers_concat, FileEvent.offer?, if_pos rfl]
    rfl
  have other : ∀ j, k ≠ j → offers j (events ++ [.updated k instrumentID newData]) =
      offers j events := by
    intro j ne
    rw [offers_concat, FileEvent.offer?, if_neg ne]
    exact List.append_nil _
  have inside := (List.getElem?_eq_some_iff.mp file).1
  refine ⟨?_, fun j request' s' asked file' => ?_, fun j beyond => ?_, fun p j reader entry => ?_⟩
  · rw [requested, List.length_set, h.length]
  · rw [requested] at asked
    by_cases same : k = j
    · subst same
      rw [List.getElem?_set_self inside] at file'
      obtain rfl := Option.some.inj file'
      rw [own]
      exact ((h.serves k request' s asked file).onRtnData instrumentID newData).1
    · rw [List.getElem?_set_ne same] at file'
      rw [other j same]
      exact h.serves j request' s' asked file'
  · rw [List.length_set] at beyond
    rw [other j (by omega)]
    exact h.unoffered j beyond
  · rw [requested]
    exact h.entries p j reader entry

theorem asked (h : Kept events w) (p : P) : Kept (events ++ [.asked p]) w := by
  have requested : requests (events ++ [.asked p]) = requests events :=
    (requests_concat events _).trans (List.append_nil _)
  have offered : ∀ k, offers k (events ++ [.asked p]) = offers k events := fun k =>
    (offers_concat k events _).trans (List.append_nil _)
  refine ⟨?_, fun k request' s asked file => ?_, fun k beyond => ?_, fun q k reader entry => ?_⟩
  · rw [requested, h.length]
  · rw [requested] at asked
    rw [offered]
    exact h.serves k request' s asked file
  · rw [offered]
    exact h.unoffered k beyond
  · rw [requested]
    exact h.entries q k reader entry

/-- The number of the file that the name leads to. -/
theorem last_file (h : Kept events w) (last : w.files.getLast? = some s) :
    ∃ k request, (requests events).length = k + 1 ∧ w.files.length = k + 1 ∧
      (requests events)[k]? = some request ∧ w.files[k]? = some s := by
  have nonempty : w.files ≠ [] := by
    rintro none
    rw [none] at last
    cases last
  have pos := List.length_pos_iff.mpr nonempty
  have length := h.length
  obtain ⟨k, count⟩ : ∃ k, w.files.length = k + 1 := ⟨w.files.length - 1, by omega⟩
  have inside : k < (requests events).length := by omega
  refine ⟨k, (requests events)[k], by omega, count, List.getElem?_eq_getElem inside, ?_⟩
  rw [List.getLast?_eq_getElem?, count] at last
  exact last

variable [DecidableEq P]

theorem attached (h : Kept events w) {page : Region α} {fuel : Nat}
    (last : w.files.getLast? = some s)
    (opened : (new page).getShm s.shm s.mShmSize fuel = some reader) :
    Kept (events ++ [.asked p])
      { w with mCon := Function.update w.mCon p (some (w.files.length - 1, reader)) } := by
  have kept := h.asked p
  refine ⟨kept.length, kept.serves, kept.unoffered, fun q k reader' entry => ?_⟩
  by_cases same : q = p
  · subst same
    simp only [Function.update_self, Option.some.injEq, Prod.mk.injEq] at entry
    obtain ⟨rfl, rfl⟩ := entry
    obtain ⟨k, request, -, count, asked, file⟩ := h.last_file last
    rw [count, requests_concat, Nat.add_sub_cancel]
    have inside := (List.getElem?_eq_some_iff.mp asked).1
    refine ⟨request, (List.getElem?_append_left inside).trans asked, ?_⟩
    exact ⟨_, s, page, s.mShmSize, fuel, h.serves k request s asked file, opened⟩
  · simp only [Function.update_of_ne same] at entry
    exact kept.entries q k reader' entry

theorem step (h : Kept events w) (taken : World.Step w e w') : Kept (events ++ [e]) w' := by
  cases taken with
  | created page request => exact h.created page request
  | updated instrumentID newData file => exact h.updated instrumentID newData file
  | cached found => exact h.asked _
  | attached page fuel absent last opened => exact h.attached last opened

theorem of_run (run : Run World.Step World.empty events w) : Kept events w :=
  run.invariant empty step

end Kept

/-! ## What a process reads -/

section
variable [DecidableEq P]

/-- The entry of a process is made when it first asks. -/
theorem mCon_eq_none_iff (run : Run World.Step World.empty events w) (p : P) :
    w.mCon p = none ↔ .asked p ∉ events := by
  refine run.invariant (I := fun events w => w.mCon p = none ↔ .asked p ∉ events)
    (iff_of_true rfl List.not_mem_nil) ?_
  intro events w e w' h taken
  rw [List.mem_append, List.mem_singleton, not_or, ← h]
  cases taken with
  | created | updated => exact (and_iff_left nofun).symm
  | @cached q entry found =>
      refine (and_iff_left_of_imp fun absent same => ?_).symm
      cases same
      cases absent.symm.trans found
  | @attached q s reader page fuel absent last opened =>
      by_cases same : p = q
      · subst same
        exact iff_of_false (by simp) fun both => both.2 rfl
      · simp only [Function.update_of_ne same]
        exact (and_iff_left fun equal => same (FileEvent.asked.inj equal)).symm

/-- An entry stays. -/
theorem mCon_kept {entry : Nat × ShmMdPlus α} (run : Run World.Step w events w')
    (found : w.mCon p = some entry) : w'.mCon p = some entry := by
  refine run.invariant (I := fun _ w' => w'.mCon p = some entry) found ?_
  intro events w e w' found taken
  cases taken with
  | created | updated | cached => exact found
  | attached page fuel absent =>
      refine (Function.update_of_ne ?_ ..).trans found
      rintro rfl
      cases absent.symm.trans found

/-- A reader finds what its file serves. -/
theorem AttachedTo.reads (attached : AttachedTo request reader)
    {offered : List (UInt64 × α)}
    (serves : Serves request.instruments request.mdBuffNum offered s) :
    Agrees s (reader.seeing s.shm) ∧ Reads request offered (reader.seeing s.shm) := by
  obtain ⟨offered₀, s₀, page, shmSize, fuel, serves₀, opened⟩ := attached
  have agrees := serves₀.reader_agrees serves request.blocks' request.short opened
  refine ⟨agrees, fun id listed => ?_, fun id listed => ?_, fun id unlisted => ?_⟩
  · rw [agrees.getCurMd]
    exact serves.getCurMd request.blocks (List.mem_map_of_mem listed)
  · rw [← serves.getUpdateNum (List.mem_map_of_mem listed), ShmMdPlus.getUpdateNum,
      agrees.address]
    rfl
  · rw [agrees.getCurMd, ShmMdPlus.getCurMd, (serves.lookup_eq_none_iff _).mpr unlisted]
    rfl

/-- After any run without overlaps: a process that asked for the store reads, for the instruments of
the creation that was the last one when it first asked, exactly what its creator offered, at any
time since. It never reads an update of a later creation. -/
theorem manager_reads (run : Run World.Step World.empty (before ++ .asked p :: after) w)
    (first : .asked p ∉ before) : ∃ k request s reader,
      (requests before).length = k + 1 ∧ (requests before)[k]? = some request ∧
      w.files[k]? = some s ∧ w.mCon p = some (k, reader) ∧ Agrees s (reader.seeing s.shm) ∧
      Reads request (offers k (before ++ .asked p :: after)) (reader.seeing s.shm) := by
  obtain ⟨w₁, run₁, run₂⟩ := run.split
  obtain ⟨w₂, taken, rest⟩ := run₂.uncons
  have kept := Kept.of_run run
  have absent := (mCon_eq_none_iff run₁ p).mpr first
  cases taken with
  | cached found => cases absent.symm.trans found
  | @attached _ s₁ reader page fuel _ last opened =>
      obtain ⟨k, request, count, files, asked, file⟩ := (Kept.of_run run₁).last_file last
      have entry := mCon_kept rest (p := p) (Function.update_self ..)
      rw [files, Nat.add_sub_cancel] at entry
      obtain ⟨request', asked', attached⟩ := kept.entries p k reader entry
      have requested : (requests (before ++ .asked p :: after))[k]? = some request := by
        rw [requests, List.filterMap_append]
        exact (List.getElem?_append_left (List.getElem?_eq_some_iff.mp asked).1).trans asked
      obtain rfl := Option.some.inj (requested.symm.trans asked')
      have inside : k < w.files.length := by
        rw [kept.length]
        exact (List.getElem?_eq_some_iff.mp requested).1
      have now := List.getElem?_eq_getElem inside
      obtain ⟨agrees, reads⟩ := attached.reads (kept.serves k request _ requested now)
      exact ⟨k, request, _, reader, count, asked, now, entry, agrees, reads⟩

end

theorem letterA_ne_zero : (65 : UInt8) ≠ 0 := by decide

/-- A feed for the instrument `A`, started again after a process asked for its store. -/
def restarted : List (FileEvent Unit UInt64) :=
  [.created (requestOf 65 letterA_ne_zero), .asked (), .created (requestOf 65 letterA_ne_zero),
    .updated 1 [65] 7]

theorem restarted_run : ∃ w, Run World.Step World.empty restarted w := by
  have serves : Serves [[65]] 1 [] (start (Region.zeroed : Region UInt64) 1 1 [[65]]) :=
    .start Region.zeroed (by decide) (by decide) (by decide)
  obtain ⟨fuel, reader, opened⟩ := serves.exists_reader (by decide) Region.zeroed
    (start (Region.zeroed : Region UInt64) 1 1 [[65]]).mShmSize
  have created : Run World.Step World.empty [.created (requestOf 65 letterA_ne_zero)]
      (⟨[start Region.zeroed 1 1 [[65]]], fun _ => none⟩ : World Unit UInt64) :=
    .single (.created Region.zeroed _)
  have asked := created.snoc (.attached (p := ()) Region.zeroed fuel rfl rfl opened)
  exact ⟨_, (asked.snoc (.created Region.zeroed _)).snoc (.updated [65] 7 rfl)⟩

/-- The process does not see the update. -/
theorem manager_reads_restarted : ∃ (w : World Unit UInt64) (s reader : ShmMdPlus UInt64),
    Run World.Step World.empty restarted w ∧ w.files[0]? = some s ∧
      w.mCon () = some (0, reader) ∧ (reader.seeing s.shm).getCurMd [65] = some 0 := by
  obtain ⟨w, run⟩ := restarted_run
  have split : restarted = [.created (requestOf 65 letterA_ne_zero)] ++
    .asked () :: [.created (requestOf 65 letterA_ne_zero), .updated 1 [65] 7] := rfl
  obtain ⟨k, request, s, reader, count, asked, file, entry, -, reads⟩ :=
    manager_reads (split ▸ run) (by simp)
  obtain rfl : 0 = k := Nat.succ_inj.mp count
  obtain rfl : requestOf 65 letterA_ne_zero = request := Option.some.inj asked
  exact ⟨w, s, reader, run, file, entry, reads.newest [65] (List.mem_singleton_self _)⟩

end RazorCrypto.Shm.ShmMdPlus
