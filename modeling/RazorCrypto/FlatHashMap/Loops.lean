import RazorCrypto.FlatHashMap.Table
import RazorCrypto.Foundation.Fallible

/-!
# The loops over the entries

Each loop of the table walks over the rest of the array from some entry on. On arranged
entries none of them runs behind the array or reads an entry without a value: a search
stops in front of the entry the key would be put in, the displacing loop of
`emplace_new_key` keeps the arrangement whether or not it finds a place for each element,
and the loop of `erase` closes the gap.
-/

namespace RazorCrypto.FlatHashMap

open RobinHood Fallible

variable {K V : Type}

/-- No failure is allowed. -/
abbrev Never (_ : Failure) : Prop := False

namespace Table

section Equations

variable {distance nearer lookups it : Nat} {value old : K × V} {rest : List (Entry K V)}

theorem probe_free [DecidableEq K] (key : K) :
    probe key ((.free : Entry K V) :: rest) it distance = .ok (.missing it distance) :=
  if_neg (by simp only [Entry.distanceFromDesired]; omega)

theorem probe_stop [DecidableEq K] (key : K) (far : 0 < distance) :
    probe key ((.stop : Entry K V) :: rest) it distance = .ok (.missing it distance) :=
  if_neg (by simp only [Entry.distanceFromDesired]; omega)

theorem probe_filled [DecidableEq K] (key : K) :
    probe key (.filled nearer old :: rest) it distance =
      if distance ≤ nearer then
        if old.1 = key then .ok (.found it) else probe key rest (it + 1) (distance + 1)
      else .ok (.missing it distance) := by
  simp only [probe, Entry.distanceFromDesired, Slot.item?, Int.ofNat_le]

theorem displace_free :
    displace lookups (.free :: rest) distance value =
      .ok (.placed (.filled distance value :: rest)) := rfl

theorem displace_filled :
    displace lookups (.filled nearer old :: rest) distance value =
      if nearer < distance then
        (displace lookups rest (nearer + 1) old).map (.cons (.filled distance value))
      else if distance + 1 = lookups then .ok (.stuck (.filled nearer old :: rest) value)
      else (displace lookups rest (distance + 1) value).map (.cons (.filled nearer old)) := by
  rw [displace, Entry.isEmpty_filled, if_neg Bool.false_ne_true]
  exact if_congr Int.ofNat_lt rfl rfl

theorem moveBack_free :
    moveBack ((.free : Entry K V) :: rest) = .ok (.free :: .free :: rest) := rfl

theorem moveBack_stop :
    moveBack ((.stop : Entry K V) :: rest) = .ok (.free :: .stop :: rest) := rfl

theorem moveBack_filled :
    moveBack (.filled distance value :: rest) =
      if distance = 0 then .ok (.free :: .filled distance value :: rest)
      else (moveBack rest).map (.filled (distance - 1) value :: ·) :=
  if_congr (Entry.isAtDesiredPosition_filled distance value) rfl rfl

end Equations

section Search

variable {place : K → Nat} {slots lookups p reach distance : Nat} {key : K}
variable {row : List (Entry K V)}

/-- What a search for a key establishes about the entries from `p` on. Where the key is
missing, other entries may stand from the one on where it stopped. -/
inductive Searched (place : K → Nat) (slots lookups : Nat) (key : K) (p reach distance : Nat)
    (row : List (Entry K V)) : Probe → Prop
  | found (front : List (Entry K V)) {nearer : Nat} {value : V} {back : List (Entry K V)}
      (split : row = front ++ .filled nearer (key, value) :: back) :
      Searched place slots lookups key p reach distance row (.found (p + front.length))
  | missing (front : List (Entry K V)) {back : List (Entry K V)} (split : row = front ++ back)
      (absent : key ∉ (items row).map Prod.fst) (short : distance + front.length ≤ lookups)
      (stops : ∀ nearer item, back.head? = some (.filled nearer item) →
        nearer < distance + front.length)
      (rest : Arranged (fun v : K × V => place v.1) slots lookups (p + front.length)
        (distance + front.length) back)
      (replaced : ∀ back', Arranged (fun v : K × V => place v.1) slots lookups
        (p + front.length) (distance + front.length) back' →
        Arranged (fun v : K × V => place v.1) slots lookups p reach (front ++ back')) :
      Searched place slots lookups key p reach distance row
        (.missing (p + front.length) (distance + front.length))

/-- One entry passed over. -/
theorem Searched.cons {nearer : Nat} {item : K × V} {probe : Probe}
    (h : Searched place slots lookups key (p + 1) (nearer + 1) (distance + 1) row probe)
    (near : nearer ≤ reach) (short : nearer < lookups) (home : place item.1 + nearer = p)
    (other : item.1 ≠ key) :
    Searched place slots lookups key p reach distance (.filled nearer item :: row) probe := by
  have shift : ∀ (n : Nat) (front : List (Entry K V)),
      n + 1 + front.length = n + (.filled nearer item :: front : List (Entry K V)).length := by
    intro n front
    rw [List.length_cons]
    omega
  cases h with
  | @found front nearer' value back split =>
      rw [shift]
      exact .found _ (by rw [split, List.cons_append])
  | @missing front back split absent short' stops rest replaced =>
      rw [shift] at short' rest
      simp only [shift] at stops replaced ⊢
      refine .missing _ (by rw [split, List.cons_append]) ?_ short' stops ?_ ?_
      · rw [items_filled, List.map_cons, List.mem_cons, not_or]
        exact ⟨Ne.symm other, absent⟩
      · rwa [shift] at rest
      · exact fun back' arranged => .filled near short home (replaced back' arranged)

theorem probe_searched [DecidableEq K]
    (h : Arranged (fun v : K × V => place v.1) slots lookups p reach row)
    (le : distance ≤ reach) (short : distance ≤ lookups) (here : place key + distance = p)
    (inside : place key + 1 < slots + lookups) :
    Ends Never (Searched place slots lookups key p reach distance row)
      (probe key row p distance) := by
  induction h generalizing distance with
  | stop last =>
      rw [probe_stop key (by omega)]
      exact .missing [] rfl (by simp) short nofun (.stop last)
        fun _ other => other.raise le
  | free rest =>
      rw [probe_free]
      refine .missing [] rfl ?_ short nofun (.free rest) fun _ other => other.raise le
      rw [items_free, List.mem_map]
      rintro ⟨item, listed, rfl⟩
      exact rest.absent (Nat.succ_pos distance) (by omega) listed
  | @filled p reach nearer item row near within home rest ih =>
      rw [probe_filled]
      split
      · next le' =>
          split
          · next same =>
              subst same
              exact .found [] rfl
          · next other =>
              refine (ih (Nat.succ_le_succ le') (by omega) (by omega)).mono ?_
              exact fun _ searched => searched.cons near within home other
      · next far =>
          have lt : nearer < distance := Nat.lt_of_not_le far
          refine .missing [] rfl ?_ short ?_ (.filled lt.le within home rest)
            fun _ other => other.raise le
          rotate_left
          · rintro _ _ ⟨⟩
            exact lt
          rw [items_filled, List.map_cons, List.mem_cons, not_or]
          refine ⟨?_, ?_⟩
          · rintro rfl
            omega
          · rw [List.mem_map]
            rintro ⟨other, listed, rfl⟩
            exact rest.absent (Nat.succ_lt_succ lt) (by omega) listed

end Search

section Displacing

variable {home : K × V → Nat} {slots lookups p reach distance : Nat} {value : K × V}
variable {row : List (Entry K V)}

/-- What the displacing loop leaves, with an element to insert into the entries from `p` on. -/
def Displaced.Keeps (home : K × V → Nat) (slots lookups p reach : Nat) (row : List (Entry K V))
    (value : K × V) : Displaced K V → Prop
  | .placed row' =>
      Arranged home slots lookups p reach row' ∧ (items row').Perm (value :: items row)
  | .stuck row' left =>
      Arranged home slots lookups p reach row' ∧
        (left :: items row').Perm (value :: items row)

theorem displace_keeps (h : Arranged home slots lookups p reach row) (near : distance ≤ reach)
    (short : distance < lookups) (here : home value + distance = p)
    (inside : ∀ value, home value < slots) :
    Ends Never (Displaced.Keeps home slots lookups p reach row value)
      (displace lookups row distance value) := by
  induction h generalizing distance value with
  | stop last =>
      have := inside value
      omega
  | free rest =>
      rw [displace_free]
      exact ⟨.filled near short here (rest.raise (Nat.zero_le _)), .refl _⟩
  | @filled p reach nearer old row near' within place rest ih =>
      rw [displace_filled]
      split
      · next lt =>
          refine (ih (Nat.le_refl _) (by omega) (by omega)).map ?_
          rintro (row' | ⟨row', left⟩) ⟨arranged, same⟩
          · exact ⟨.filled near short here (arranged.raise (by omega)), same.cons value⟩
          · refine ⟨.filled near short here (arranged.raise (by omega)), ?_⟩
            exact (List.Perm.swap value left (items row')).trans (same.cons value)
      · next le =>
          have le' : distance ≤ nearer := Nat.le_of_not_lt le
          split
          · exact ⟨.filled near' within place rest, .refl _⟩
          · next more =>
              refine (ih (Nat.succ_le_succ le') (by omega) (by omega)).map ?_
              rintro (row' | ⟨row', left⟩) ⟨arranged, same⟩
              · refine ⟨.filled near' within place arranged, ?_⟩
                exact (same.cons old).trans (List.Perm.swap value old (items row))
              · refine ⟨.filled near' within place arranged, ?_⟩
                refine (List.Perm.swap old left (items row')).trans ?_
                exact (same.cons old).trans (List.Perm.swap value old (items row))

/-- Closing a gap: the entries from the emptied one on are arranged again. -/
theorem moveBack_keeps (h : Arranged home slots lookups (p + 1) (reach + 1) row) :
    Ends Never
      (fun row' => Arranged home slots lookups p reach row' ∧ items row' = items row)
      (moveBack row) := by
  induction row generalizing p reach with
  | nil => cases h
  | cons next row ih =>
      cases h with
      | stop last =>
          rw [moveBack_stop]
          exact ⟨.free (.stop last), rfl⟩
      | free rest =>
          rw [moveBack_free]
          exact ⟨.free (.free rest), rfl⟩
      | @filled _ _ distance item _ near short place rest =>
          rw [moveBack_filled]
          split
          · next zero =>
              subst zero
              exact ⟨.free (.filled (Nat.le_refl 0) short place rest), rfl⟩
          · next away =>
              have back : distance - 1 + 1 = distance := by omega
              have later : Arranged home slots lookups (p + 1 + 1) (distance + 1) row := rest
              refine (ih later).map ?_
              rintro row' ⟨arranged, same⟩
              refine ⟨.filled (by omega) (by omega) (by omega) ?_, ?_⟩
              · rwa [back]
              · rw [items_filled, items_filled, same]

end Displacing
end Table
end RazorCrypto.FlatHashMap
