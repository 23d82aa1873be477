import Mathlib.Data.List.Nodup
import RazorCrypto.BinanceMd.Payload
import RazorCrypto.MDRunner.Resource

/-!
# Loading the connections

`main` loads a library for each element of `connections` and keeps the instances that it made
until the end. An exception on the way ends its element only: the instance is destroyed, and the
handle stays open. What a document lacks ends the element as well, but only an object may be asked
for a member: for an element that is none, `HasMember` is called outside of its precondition. A
build with assertions ends there, and so does the model; the build files of this target turn them
off, and what such a call finds is then undefined.

What `dlopen`, `dlsym` and the functions of the library do is a parameter; they throw nothing but
`std::exception`, which `main` catches, and once it waits, `main` is told to exit. A handle and its
instance are named by the index of the element, so that a library which two elements open counts as
two.
-/

namespace RazorCrypto.MDRunner

open BinanceMd Fallible Shm

/-- What `create_mdlib` does. -/
inductive Creation
  | throws
  | null
  | created
deriving DecidableEq

/-- What comes of each call for a connection: a pointer, or a return. -/
structure Library where
  dlopen : Bool
  dlsym : Bool
  createMdlib : Creation
  initShm : Bool
  initialise : Bool
  start : Bool

/-- What happens in a run of `main`. -/
inductive Happening
  | dlopened (libPath : Name) (handle : Nat)
  | created (md : Nat)
  | initShm (md : Nat)
  | initialise (md : Nat)
  | start (md : Nat)
  | released (e : Event Nat Nat)

abbrev Resource := MDResource Nat Nat

/-- `md_resources`, and what happened. -/
structure Loader where
  mdResources : List Resource := []
  log : List Happening := []

/-- The calls on a new instance, and whether all of them return. -/
def launch (lib : Library) (md : Nat) : List Happening × Bool :=
  if !lib.initShm then ([.initShm md], false)
  else if !lib.initialise then ([.initShm md, .initialise md], false)
  else ([.initShm md, .initialise md, .start md], lib.start)

/-- `emplace_back` of a resource that is moved from, and the end of the latter. A vector that
grows moves its elements and destroys the old ones. -/
def emplaceBack (grows : Bool) (mdResources : List Resource) (res : Resource) :
    List Resource × List (Event Nat Nat) :=
  let (stored, rest) := res.moveConstruct
  let moved := mdResources.map MDResource.moveConstruct
  if grows then
    (moved.map Prod.fst ++ [stored], moved.flatMap (fun m => m.2.destruct) ++ rest.destruct)
  else (mdResources ++ [stored], rest.destruct)

/-- The rest of the `try` block, once the path is known. -/
def load (lib : Library) (grows : Bool) (i : Nat) (libPath : Name) (s : Loader) : Loader :=
  if !lib.dlopen then s
  else if !lib.dlsym then
    { s with log := s.log ++ [.dlopened libPath i, .released (.dlclosed i)] }
  else match lib.createMdlib with
    | .throws => { s with log := s.log ++ [.dlopened libPath i] }
    | .null => { s with log := s.log ++ [.dlopened libPath i, .released (.dlclosed i)] }
    | .created =>
      let (calls, returned) := launch lib i
      let log := s.log ++ .dlopened libPath i :: .created i :: calls
      if returned then
        let (res, assigned) := MDResource.fill {} i i
        let (mdResources, moved) := emplaceBack grows s.mdResources res
        ⟨mdResources, log ++ (assigned ++ moved).map .released⟩
      else { s with log := log ++ (MDResource.destroyInstance (some i)).map .released }

/-- A turn of the loop, which ends at a call outside of its precondition. -/
def turn (env : Nat → Library) (grows : Nat → Bool) (s : Loader) (c : Json × Nat) :
    Except Failure Loader := do
  let (conn, i) := c
  if !(← conn.hasMember (ascii "lib_path")) then return s
  let libPath ← conn.item (ascii "lib_path")
  if !libPath.isString then return s
  let libPath ← libPath.getString
  return load (env i) (grows i) i libPath s

/-- What is destroyed with `md_resources`. -/
def Loader.exit (s : Loader) : List Happening :=
  (s.mdResources.flatMap MDResource.destruct).map .released

/-- How `main` returns: before it loads anything, or with what happened while it was loading and
what happened at its end. -/
inductive Finish
  | returned (code : Int)
  | ran (loading exit : List Happening)

/-- `main` with a document, if it is told to exit. -/
def loadConnections (env : Nat → Library) (grows : Nat → Bool) (jsonConfig : Json) :
    Except Failure Finish := do
  if !(← jsonConfig.hasMember (ascii "connections")) then return .returned 1
  match ← jsonConfig.item (ascii "connections") with
  | .array [] => return .returned 0
  | .array connections =>
    let s ← connections.zipIdx.foldlM (turn env grows) {}
    return .ran s.log s.exit
  | _ => return .returned 1

/-- `main`. -/
def main (parse : Name → Option Json) (env : Nat → Library) (grows : Nat → Bool)
    (argv : List Name) (readFile : Name → Option Name) : Except Failure Finish := do
  let some jsonPath := argv[1]? | return .returned 1
  let some jsonStr := readFile jsonPath | return .returned 1
  let some jsonConfig := parse (cStr jsonStr) | return .returned 1
  loadConnections env grows jsonConfig

/-! ## One connection -/

/-- The path of a connection that has one. -/
def libPath? (conn : Json) : Option Name :=
  match conn.member? (ascii "lib_path") with
  | some (.string s) => some (cStr s)
  | _ => none

/-- One loader after another. -/
def Loader.append (s t : Loader) : Loader := ⟨s.mdResources ++ t.mdResources, s.log ++ t.log⟩

/-- What a connection adds. -/
def brought (lib : Library) (conn : Json) (i : Nat) : Loader :=
  (libPath? conn).elim {} fun libPath => load lib false i libPath {}

variable {env : Nat → Library} {grows : Nat → Bool} {s : Loader} {lib : Library} {i : Nat}

@[simp] theorem Loader.append_empty (s : Loader) : s.append {} = s := by
  simp [Loader.append]

@[simp] theorem Loader.append_log (s t : Loader) : (s.append t).log = s.log ++ t.log := rfl

@[simp] theorem Loader.append_mdResources (s t : Loader) :
    (s.append t).mdResources = s.mdResources ++ t.mdResources := rfl

/-- Nothing happens to the resources of a vector that grows. -/
theorem emplaceBack_eq (grows : Bool) (mdResources : List Resource) (res : Resource) :
    emplaceBack grows mdResources res = (mdResources ++ [res], []) := by
  have stored : mdResources.map (fun m => m.moveConstruct.1) = mdResources := List.map_id _
  have rest : mdResources.flatMap (fun m => m.moveConstruct.2.destruct) = [] := by
    rw [List.flatMap_eq_nil_iff]
    exact fun m _ => rfl
  cases grows with
  | false => rfl
  | true =>
      simp only [emplaceBack, List.map_map, List.flatMap_map, Function.comp_def, if_true]
      rw [stored, rest]
      rfl

/-- What is loaded does not depend on what was loaded before. -/
theorem load_eq (grows : Bool) (libPath : Name) (s : Loader) :
    load lib grows i libPath s = s.append (load lib false i libPath {}) := by
  simp only [load, emplaceBack_eq]
  split
  · simp
  · split
    · simp [Loader.append]
    · split
      · simp [Loader.append]
      · simp [Loader.append]
      · split <;> simp [Loader.append]

theorem turn_eq (c : Json × Nat) : turn env grows s c =
    if c.1.isObject then .ok (s.append (brought (env c.2) c.1 c.2)) else .error .assertion := by
  obtain ⟨conn, i⟩ := c
  rw [turn, Json.hasMember, Json.findMember]
  cases kind : conn.isObject with
  | false => rfl
  | true =>
      rw [brought, libPath?]
      cases found : conn.member? (ascii "lib_path") with
      | none => simp [bind, Except.bind, pure, Except.pure]
      | some m =>
          have item : conn.item (ascii "lib_path") = .ok m := by rw [Json.item_eq, found]
          cases m with
          | string libPath =>
              rw [item, if_pos rfl, Option.elim_some, ← load_eq]
              rfl
          | _ => simp [bind, Except.bind, pure, Except.pure, item, Json.isString]

/-- The loop returns if all elements are objects, with what each of them adds. -/
theorem loop_eq (connections : List (Json × Nat)) :
    connections.foldlM (turn env grows) s =
      if connections.all fun c => c.1.isObject then
        .ok (connections.foldl (fun s c => s.append (brought (env c.2) c.1 c.2)) s)
      else .error .assertion := by
  induction connections generalizing s with
  | nil => rfl
  | cons c connections ih =>
      rw [List.foldlM_cons, turn_eq]
      cases kind : c.1.isObject with
      | false =>
          rw [List.all_cons, kind]
          rfl
      | true =>
          simp only [if_true, List.all_cons, kind, Bool.true_and, List.foldl_cons]
          exact ih

/-- What a sequence of connections adds. -/
theorem foldl_brought (connections : List (Json × Nat)) :
    connections.foldl (fun s c => s.append (brought (env c.2) c.1 c.2)) s =
      ⟨s.mdResources ++ connections.flatMap fun c => (brought (env c.2) c.1 c.2).mdResources,
        s.log ++ connections.flatMap fun c => (brought (env c.2) c.1 c.2).log⟩ := by
  induction connections generalizing s with
  | nil => simp
  | cons c connections ih =>
      rw [List.foldl_cons, ih]
      simp [Loader.append]

/-- In a sequence of parts, one for each element, the items of a part. -/
theorem filter_flatMap_zipIdx {α β : Type} {key : β → Nat} {f : α × Nat → List β}
    (own : ∀ c, ∀ b ∈ f c, key b = c.2) (list : List α) (n i : Nat) :
    ((list.zipIdx n).flatMap f).filter (fun b => key b = n + i) =
      list[i]?.elim [] fun a => f (a, n + i) := by
  have all : ∀ c, (f c).filter (fun b => key b = c.2) = f c := fun c =>
    List.filter_eq_self.mpr fun b inside => decide_eq_true (own c b inside)
  have none : ∀ c k, k ≠ c.2 → (f c).filter (fun b => key b = k) = [] := by
    intro c k ne
    apply List.filter_eq_nil_iff.mpr
    intro b inside
    rw [own c b inside]
    simpa using Ne.symm ne
  induction list generalizing n i with
  | nil => rfl
  | cons a list ih =>
      rw [List.zipIdx_cons, List.flatMap_cons, List.filter_append]
      cases i with
      | zero =>
          have later : ((list.zipIdx (n + 1)).flatMap f).filter (fun b => key b = n) = [] := by
            apply List.filter_eq_nil_iff.mpr
            intro b inside
            obtain ⟨c, member, inside⟩ := List.mem_flatMap.mp inside
            have above := List.le_snd_of_mem_zipIdx member
            rw [own c b inside]
            simp
            omega
          have here := all (a, n)
          simp only [Nat.add_zero, List.getElem?_cons_zero, Option.elim_some] at here ⊢
          rw [here, later, List.append_nil]
      | succ i =>
          rw [none (a, n) _ (by simp), List.nil_append, List.getElem?_cons_succ]
          have rest := ih (n + 1) i
          rw [Nat.add_assoc, Nat.add_comm 1 i] at rest
          exact rest

/-- The connection that something happens to. -/
def Event.connection : Event Nat Nat → Nat
  | opened handle _ => handle
  | stopped md => md
  | dlclosed handle => handle
  | destroyed md => md

def Happening.connection : Happening → Nat
  | dlopened _ handle => handle
  | created md | initShm md | initialise md | start md => md
  | released e => e.connection

/-- All calls on a new instance return. -/
def Library.launches (lib : Library) : Bool := lib.initShm && lib.initialise && lib.start

/-- The library of a connection is opened. -/
def opens (conn : Json) (lib : Library) : Bool := (libPath? conn).isSome && lib.dlopen

/-- The instance of a connection is kept until the end. -/
def loads (conn : Json) (lib : Library) : Bool :=
  opens conn lib && lib.dlsym && lib.createMdlib == .created && lib.launches

/-- The library of a connection stays open. -/
def leaks (conn : Json) (lib : Library) : Bool :=
  opens conn lib && lib.dlsym &&
    (lib.createMdlib == .throws || (lib.createMdlib == .created && !lib.launches))

/-- What a connection can bring. -/
inductive Course (conn : Json) (lib : Library) (i : Nat) : Loader → Prop
  | skipped (closed : opens conn lib = false) : Course conn lib i {}
  | refused {p} (path : libPath? conn = some p) (dlopen : lib.dlopen = true)
      (none : lib.dlsym = false ∨ lib.createMdlib = .null) :
      Course conn lib i ⟨[], [.dlopened p i, .released (.dlclosed i)]⟩
  | thrown {p} (path : libPath? conn = some p) (dlopen : lib.dlopen = true)
      (dlsym : lib.dlsym = true) (throws : lib.createMdlib = .throws) :
      Course conn lib i ⟨[], [.dlopened p i]⟩
  | unwound {p calls} (path : libPath? conn = some p) (dlopen : lib.dlopen = true)
      (dlsym : lib.dlsym = true) (created : lib.createMdlib = .created)
      (fails : lib.launches = false) (made : calls <+: [.initShm i, .initialise i, .start i]) :
      Course conn lib i
        ⟨[], .dlopened p i :: .created i :: calls ++ [.released (.destroyed i)]⟩
  | kept {p} (path : libPath? conn = some p) (dlopen : lib.dlopen = true)
      (dlsym : lib.dlsym = true) (created : lib.createMdlib = .created)
      (launches : lib.launches = true) :
      Course conn lib i ⟨[⟨some i, some i⟩],
        [.dlopened p i, .created i, .initShm i, .initialise i, .start i]⟩

theorem launch_snd (lib : Library) (i : Nat) : (launch lib i).2 = lib.launches := by
  rw [launch, Library.launches]
  cases lib.initShm <;> cases lib.initialise <;> rfl

theorem launch_initial (lib : Library) (i : Nat) :
    (launch lib i).1 <+: [.initShm i, .initialise i, .start i] := by
  rw [launch]
  cases lib.initShm <;> cases lib.initialise <;> simp

theorem launch_of_launches (launches : lib.launches = true) (i : Nat) :
    (launch lib i).1 = [.initShm i, .initialise i, .start i] := by
  rw [Library.launches, Bool.and_eq_true, Bool.and_eq_true] at launches
  rw [launch, launches.1.1, launches.1.2]
  rfl

theorem course (lib : Library) (conn : Json) (i : Nat) :
    Course conn lib i (brought lib conn i) := by
  rw [brought]
  cases path : libPath? conn with
  | none => exact .skipped (by simp [opens, path])
  | some p =>
      show Course conn lib i (load lib false i p {})
      rw [load]
      cases dlopen : lib.dlopen with
      | false => exact .skipped (by simp [opens, dlopen])
      | true =>
          cases dlsym : lib.dlsym with
          | false => exact .refused path dlopen (.inl dlsym)
          | true =>
              cases create : lib.createMdlib with
              | throws => exact .thrown path dlopen dlsym create
              | null => exact .refused path dlopen (.inr create)
              | created =>
                  have returned := launch_snd lib i
                  cases launches : lib.launches with
                  | false =>
                      have unwound : Course conn lib i _ :=
                        .unwound path dlopen dlsym create launches (launch_initial lib i)
                      simpa [returned, launches, MDResource.destroyInstance] using unwound
                  | true =>
                      have kept : Course conn lib i _ := .kept path dlopen dlsym create launches
                      simpa [returned, launches, launch_of_launches launches, emplaceBack_eq,
                        MDResource.fill, MDResource.destroyInstance] using kept

/-- All that happens to a connection. -/
def Loader.story (s : Loader) : List Happening := s.log ++ s.exit

namespace Course

variable {conn : Json} {p : Name}

theorem mdResources_eq (h : Course conn lib i s) :
    s.mdResources = if loads conn lib then [⟨some i, some i⟩] else [] := by
  cases h with
  | skipped closed => simp [loads, closed]
  | refused path dlopen none => rcases none with none | none <;> simp [loads, none]
  | thrown path dlopen dlsym throws => simp [loads, throws]
  | unwound path dlopen dlsym created fails made => simp [loads, fails]
  | kept path dlopen dlsym created launches =>
      simp [loads, opens, path, dlopen, dlsym, created, launches]

theorem exit_eq (h : Course conn lib i s) : s.exit = if loads conn lib then
    [.released (.stopped i), .released (.dlclosed i), .released (.destroyed i)] else [] := by
  rw [Loader.exit, h.mdResources_eq]
  cases loads conn lib <;> rfl

theorem calls_cases {calls : List Happening}
    (made : calls <+: [.initShm i, .initialise i, .start i]) :
    calls = [] ∨ calls = [.initShm i] ∨ calls = [.initShm i, .initialise i] ∨
      calls = [.initShm i, .initialise i, .start i] := by
  simp only [List.prefix_cons_iff, List.prefix_nil] at made
  obtain rfl | ⟨_, rfl, rfl | ⟨_, rfl, rfl | ⟨_, rfl, rfl⟩⟩⟩ := made <;> simp

theorem own_log (h : Course conn lib i s) : ∀ e ∈ s.log, e.connection = i := by
  cases h with
  | unwound path dlopen dlsym created fails made =>
      obtain rfl | rfl | rfl | rfl := calls_cases made <;>
        simp only [List.cons_append, List.nil_append, List.forall_mem_cons] <;>
        simp [Happening.connection, Event.connection]
  | _ =>
      simp only [List.forall_mem_cons]
      simp [Happening.connection, Event.connection]

theorem own_exit (h : Course conn lib i s) : ∀ e ∈ s.exit, e.connection = i := by
  rw [h.exit_eq]
  split
  · simp only [List.forall_mem_cons]
    simp [Happening.connection, Event.connection]
  · exact nofun

theorem story_nodup (h : Course conn lib i s) : s.story.Nodup := by
  rw [Loader.story, Loader.exit]
  cases h with
  | unwound path dlopen dlsym created fails made =>
      obtain rfl | rfl | rfl | rfl := calls_cases made <;> simp
  | _ => simp [MDResource.destruct, MDResource.destroyInstance]

/-- The library is opened, and never closed. -/
theorem leaks_iff (h : Course conn lib i s) :
    ((∃ p, .dlopened p i ∈ s.log) ∧ .released (.dlclosed i) ∉ s.story) ↔
      leaks conn lib = true := by
  rw [Loader.story, Loader.exit]
  cases h with
  | skipped closed => simp [leaks, closed]
  | refused path dlopen none => rcases none with none | none <;> simp [leaks, none]
  | thrown path dlopen dlsym throws => simp [leaks, opens, path, dlopen, dlsym, throws]
  | unwound path dlopen dlsym created fails made =>
      obtain rfl | rfl | rfl | rfl := calls_cases made <;>
        simp [leaks, opens, path, dlopen, dlsym, created, fails]
  | kept path dlopen dlsym created launches =>
      simp [leaks, created, launches, MDResource.destruct, MDResource.destroyInstance]

theorem opened_iff (h : Course conn lib i s) (p : Name) :
    .dlopened p i ∈ s.log ↔ libPath? conn = some p ∧ lib.dlopen = true := by
  cases h with
  | skipped closed =>
      rw [opens, Bool.and_eq_false_iff] at closed
      refine iff_of_false List.not_mem_nil ?_
      rintro ⟨path, dlopen⟩
      simp [path, dlopen] at closed
  | refused path dlopen none => simp [path, dlopen, eq_comm]
  | thrown path dlopen dlsym throws => simp [path, dlopen, eq_comm]
  | unwound path dlopen dlsym created fails made =>
      obtain rfl | rfl | rfl | rfl := calls_cases made <;> simp [path, dlopen, eq_comm]
  | kept path dlopen dlsym created launches =>
      simp [path, dlopen, eq_comm]

/-- The instance is destroyed after its library was closed. -/
theorem late_iff (h : Course conn lib i s) :
    List.Sublist [.released (.dlclosed i), .released (.destroyed i)] s.story ↔
      loads conn lib = true := by
  have both : List.Sublist [.released (.dlclosed i), .released (.destroyed i)] s.story →
      .released (.dlclosed i) ∈ s.story ∧ .released (.destroyed i) ∈ s.story := by
    intro order
    exact ⟨order.subset (by simp), order.subset (by simp)⟩
  cases loaded : loads conn lib with
  | true =>
      refine iff_of_true ?_ rfl
      rw [Loader.story, h.exit_eq, loaded, if_pos rfl]
      exact (List.sublist_cons_self ..).trans (List.sublist_append_right ..)
  | false =>
      refine iff_of_false (fun order => ?_) nofun
      have both := both order
      rw [Loader.story, h.exit_eq, loaded] at both
      -- before the end there is no instance to a library that is closed again
      cases h with
      | unwound path dlopen dlsym created fails made =>
          obtain rfl | rfl | rfl | rfl := calls_cases made <;> simp at both
      | _ => simp at both

/-- The instance is destroyed while its library is open. -/
theorem early_iff (h : Course conn lib i s) : .released (.destroyed i) ∈ s.log ↔
    .created i ∈ s.log ∧ loads conn lib = false := by
  cases h with
  | unwound path dlopen dlsym created fails made =>
      obtain rfl | rfl | rfl | rfl := calls_cases made <;> simp [loads, fails]
  | kept path dlopen dlsym created launches =>
      simp [loads, opens, path, dlopen, dlsym, created, launches]
  | _ => simp

end Course

/-! ## All connections -/

variable {connections : List Json} {conn : Json} {loading exit : List Happening}

/-- What is known of a run for these connections. -/
structure Accounts (env : Nat → Library) (connections : List Json)
    (loading exit : List Happening) : Prop where
  bounded : ∀ e ∈ loading ++ exit, e.connection < connections.length
  once : (loading ++ exit).Nodup
  alone : ∀ i conn, connections[i]? = some conn →
    (loading ++ exit).filter (fun e => e.connection = i) = (brought (env i) conn i).story
  opened : ∀ i conn, connections[i]? = some conn → ∀ p,
    .dlopened p i ∈ loading ↔ libPath? conn = some p ∧ (env i).dlopen = true
  leaked : ∀ i conn, connections[i]? = some conn →
    (((∃ p, .dlopened p i ∈ loading) ∧ .released (.dlclosed i) ∉ loading ++ exit) ↔
      leaks conn (env i) = true)
  early : ∀ i conn, connections[i]? = some conn → (.released (.destroyed i) ∈ loading ↔
    .created i ∈ loading ∧ loads conn (env i) = false)
  late : ∀ i conn, connections[i]? = some conn →
    (List.Sublist [.released (.dlclosed i), .released (.destroyed i)] (loading ++ exit) ↔
      loads conn (env i) = true)
  ordered : exit = (connections.zipIdx.filter fun c => loads c.1 (env c.2)).flatMap fun c =>
    [.released (.stopped c.2), .released (.dlclosed c.2), .released (.destroyed c.2)]

/-- An item among those of its own connection. -/
theorem mem_filter_connection {e : Happening} {log : List Happening} (own : e.connection = i) :
    e ∈ log.filter (fun e => e.connection = i) ↔ e ∈ log := by
  simp [own]

theorem sublist_filter_connection {es log : List Happening} (own : ∀ e ∈ es, e.connection = i) :
    es.Sublist (log.filter fun e => e.connection = i) ↔ es.Sublist log := by
  constructor
  · exact fun sub => sub.trans List.filter_sublist
  · intro sub
    have filtered := sub.filter fun e => decide (e.connection = i)
    rwa [List.filter_eq_self.mpr fun e inside => decide_eq_true (own e inside)] at filtered

/-- What happens while the connections are loaded, and what at the end. -/
def loadings (env : Nat → Library) (connections : List Json) : List Happening :=
  connections.zipIdx.flatMap fun c => (brought (env c.2) c.1 c.2).log

def exits (env : Nat → Library) (connections : List Json) : List Happening :=
  connections.zipIdx.flatMap fun c => (brought (env c.2) c.1 c.2).exit

theorem filter_loadings (found : connections[i]? = some conn) :
    (loadings env connections).filter (fun e => e.connection = i) =
      (brought (env i) conn i).log := by
  have part := filter_flatMap_zipIdx (fun c => (course (env c.2) c.1 c.2).own_log) connections 0 i
  simp only [Nat.zero_add] at part
  rw [loadings, part, found, Option.elim_some]

theorem filter_exits (found : connections[i]? = some conn) :
    (exits env connections).filter (fun e => e.connection = i) =
      (brought (env i) conn i).exit := by
  have part := filter_flatMap_zipIdx (fun c => (course (env c.2) c.1 c.2).own_exit) connections 0 i
  simp only [Nat.zero_add] at part
  rw [exits, part, found, Option.elim_some]

theorem exits_eq (env : Nat → Library) (connections : List Json) : exits env connections =
    (connections.zipIdx.filter fun c => loads c.1 (env c.2)).flatMap fun c =>
      [.released (.stopped c.2), .released (.dlclosed c.2), .released (.destroyed c.2)] := by
  rw [exits]
  induction connections.zipIdx with
  | nil => rfl
  | cons c rest ih =>
      rw [List.flatMap_cons, (course (env c.2) c.1 c.2).exit_eq, ih, List.filter_cons]
      cases loads c.1 (env c.2) <;> rfl

theorem loaded_exit (env : Nat → Library) (connections : List Json) (log : List Happening) :
    (⟨connections.zipIdx.flatMap fun c => (brought (env c.2) c.1 c.2).mdResources, log⟩ :
      Loader).exit = exits env connections := by
  simp only [Loader.exit, exits, List.flatMap_assoc, List.map_flatMap]

theorem accounts (env : Nat → Library) (connections : List Json) :
    Accounts env connections (loadings env connections) (exits env connections) := by
  have alone : ∀ {i conn}, connections[i]? = some conn →
      (loadings env connections ++ exits env connections).filter (fun e => e.connection = i) =
        (brought (env i) conn i).story := by
    intro i conn found
    rw [List.filter_append, filter_loadings found, filter_exits found, Loader.story]
  have bounded : ∀ e ∈ loadings env connections ++ exits env connections,
      e.connection < connections.length := by
    intro e happened
    obtain ⟨c, member, own⟩ : ∃ c ∈ connections.zipIdx, e.connection = c.2 := by
      obtain before | late := List.mem_append.mp happened
      · obtain ⟨c, member, inside⟩ := List.mem_flatMap.mp before
        exact ⟨c, member, (course (env c.2) c.1 c.2).own_log e inside⟩
      · obtain ⟨c, member, inside⟩ := List.mem_flatMap.mp late
        exact ⟨c, member, (course (env c.2) c.1 c.2).own_exit e inside⟩
    have below := List.snd_lt_of_mem_zipIdx member
    rw [own]
    simpa using below
  refine ⟨bounded, ?_, fun i conn found => alone found, ?_, ?_, ?_, ?_, exits_eq env connections⟩
  · rw [List.nodup_iff_sublist]
    intro e twice
    have inside := bounded e (twice.subset List.mem_cons_self)
    have found := List.getElem?_eq_getElem inside
    rw [← sublist_filter_connection (i := e.connection) (by simp), alone found] at twice
    exact List.nodup_iff_sublist.mp (course _ _ _).story_nodup e twice
  · intro i conn found p
    rw [← (course (env i) conn i).opened_iff p, ← filter_loadings found,
      mem_filter_connection (by rfl)]
  · intro i conn found
    rw [← (course (env i) conn i).leaks_iff, ← alone found, ← filter_loadings found,
      mem_filter_connection (by rfl)]
    simp only [mem_filter_connection (show (Happening.dlopened _ i).connection = i from rfl)]
  · intro i conn found
    have early := (course (env i) conn i).early_iff
    rwa [← filter_loadings found, mem_filter_connection (by rfl),
      mem_filter_connection (by rfl)] at early
  · intro i conn found
    rw [← (course (env i) conn i).late_iff, ← alone found]
    apply (sublist_filter_connection ?_).symm
    simp [Happening.connection, Event.connection]

/-- The document that `main` is given. -/
def config? (parse : Name → Option Json) (argv : List Name) (readFile : Name → Option Name) :
    Option Json := do
  let jsonPath ← argv[1]?
  let jsonStr ← readFile jsonPath
  parse (cStr jsonStr)

/-- The loop over all connections, from no resources. -/
theorem loop_connections (connections : List Json) :
    connections.zipIdx.foldlM (turn env grows) {} =
      if connections.all Json.isObject then
        .ok ⟨connections.zipIdx.flatMap fun c => (brought (env c.2) c.1 c.2).mdResources,
          loadings env connections⟩
      else .error .assertion := by
  have objects : connections.zipIdx.all (fun c => c.1.isObject) =
      connections.all Json.isObject := by
    have elements := List.zipIdx_map_fst 0 connections
    rw [← elements, List.all_map, elements]
    rfl
  rw [loop_eq, foldl_brought, objects]
  rfl

variable {parse : Name → Option Json} {argv : List Name} {readFile : Name → Option Name}

theorem main_eq : main parse env grows argv readFile =
    (config? parse argv readFile).elim (.ok (.returned 1)) (loadConnections env grows) := by
  rw [main, config?]
  cases argv[1]? with
  | none => rfl
  | some jsonPath =>
      simp only [Option.bind_eq_bind, Option.bind_some]
      cases found : readFile jsonPath with
      | none => rfl
      | some jsonStr =>
          rw [Option.bind_some]
          cases parsed : parse (cStr jsonStr) <;> simp only [parsed] <;> rfl

theorem loadConnections_eq (config : Json) : loadConnections env grows config =
    if config.isObject then
      match config.member? (ascii "connections") with
      | some (.array []) => .ok (.returned 0)
      | some (.array connections) =>
          if connections.all Json.isObject then
            .ok (.ran (loadings env connections) (exits env connections))
          else .error .assertion
      | _ => .ok (.returned 1)
    else .error .assertion := by
  rw [loadConnections, Json.hasMember, Json.findMember, Json.item_eq]
  cases config.isObject with
  | false => rfl
  | true =>
      cases config.member? (ascii "connections") with
      | none => rfl
      | some m =>
          cases m with
          | array connections =>
              cases connections with
              | nil => rfl
              | cons conn connections =>
                  show (do
                    let s ← (conn :: connections).zipIdx.foldlM (turn env grows) {}
                    return Finish.ran s.log s.exit) = _
                  rw [loop_connections]
                  simp only [if_true]
                  cases (conn :: connections).all Json.isObject with
                  | false => rfl
                  | true =>
                      rw [if_pos rfl, if_pos rfl, ← loaded_exit env _ (loadings env _)]
                      rfl
          | _ => rfl

/-- The rest of `main` keeps to the preconditions exactly if there are no elements but objects. -/
theorem returns_loadConnections (config : Json) :
    Returns (loadConnections env grows config) ↔ config.isObject = true ∧
      ∀ connections, config.member? (ascii "connections") = some (.array connections) →
        ∀ conn ∈ connections, conn.isObject = true := by
  rw [loadConnections_eq]
  cases config.isObject with
  | false => simp
  | true =>
      simp only [if_true, true_and]
      split
      · next empty => simp [empty]
      · next connections _ found =>
          simp only [returns_ite_iff, returns_ok, not_returns_error, found]
          simp
      · next other =>
          refine iff_of_true (returns_ok _) ?_
          intro connections found
          exact absurd found (other connections)

def connection : Json := .object [(ascii "lib_path", .string (ascii "libbinance_md.so"))]

/-- The document with two such connections. -/
def twoConnections : Json := .object [(ascii "connections", .array [connection, connection])]

/-- The first instance cannot be started. -/
def firstFails (i : Nat) : Library := ⟨true, true, .created, true, true, i != 0⟩

end RazorCrypto.MDRunner
