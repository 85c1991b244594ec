import Mathlib.Data.List.Perm.Basic

/-!
Service in turn from a circular list of which one member may be held back. A turn
serves the first member and moves the list on by one. A first member that is held
back stays where it is, and the turn goes to the second.
-/

namespace MulticoreRtos.Rotation

universe u
variable {Member : Type u} [DecidableEq Member] {held : Member}

def turn (held : Member) : List Member → Option (Member × List Member)
  | [] => none
  | first :: rest =>
      if first = held then rest.head?.map fun second => (second, first :: rest)
      else some (first, rest ++ [first])

def turns (held : Member) : Nat → List Member → Option (List Member × List Member)
  | 0, members => some ([], members)
  | count + 1, members =>
      match turn held members with
      | none => none
      | some (served, members) =>
          (turns held count members).map fun (later, members) => (served :: later, members)

theorem turn_perm {members after : List Member} {served : Member}
    (taken : turn held members = some (served, after)) : after.Perm members := by
  cases members with
  | nil => cases taken
  | cons first rest =>
      by_cases back : first = held
      · rw [turn, if_pos back] at taken
        obtain ⟨_, _, same⟩ := Option.map_eq_some_iff.mp taken
        rw [← (Prod.mk.inj same).2]
      · rw [turn, if_neg back] at taken
        rw [← (Prod.mk.inj (Option.some.inj taken)).2]
        exact List.perm_append_comm

theorem turn_mem {members after : List Member} {served : Member}
    (taken : turn held members = some (served, after)) : served ∈ members := by
  cases members with
  | nil => cases taken
  | cons first rest =>
      by_cases back : first = held
      · rw [turn, if_pos back] at taken
        obtain ⟨second, behind, same⟩ := Option.map_eq_some_iff.mp taken
        rw [← (Prod.mk.inj same).1]
        exact List.mem_cons_of_mem _ (List.mem_of_mem_head? behind)
      · rw [turn, if_neg back] at taken
        rw [← (Prod.mk.inj (Option.some.inj taken)).1]
        exact List.mem_cons_self

theorem turns_succ {count : Nat} {members served after : List Member}
    (taken : turns held (count + 1) members = some (served, after)) :
    ∃ first later between, turn held members = some (first, between) ∧
      turns held count between = some (later, after) ∧ served = first :: later := by
  rw [turns] at taken
  cases first : turn held members with
  | none =>
      rw [first] at taken
      cases taken
  | some result =>
      rw [first] at taken
      obtain ⟨⟨later, last⟩, rest, same⟩ := Option.map_eq_some_iff.mp taken
      obtain ⟨rfl, rfl⟩ := Prod.mk.inj same
      exact ⟨result.1, later, result.2, rfl, rest, rfl⟩

theorem turns_cons {count : Nat} {members between later after : List Member} {first : Member}
    (head : turn held members = some (first, between))
    (tail : turns held count between = some (later, after)) :
    turns held (count + 1) members = some (first :: later, after) := by
  rw [turns, head]
  exact congrArg (Option.map _) tail

theorem turns_length {count : Nat} {members served after : List Member}
    (taken : turns held count members = some (served, after)) : served.length = count := by
  induction count generalizing members served with
  | zero =>
      cases taken
      rfl
  | succ count ih =>
      obtain ⟨first, later, between, _, rest, rfl⟩ := turns_succ taken
      rw [List.length_cons, ih rest]

theorem turns_split (before : List Member) {count : Nat} {members later after : List Member}
    (taken : turns held count members = some (before ++ later, after)) :
    ∃ between, between.Perm members ∧ turns held before.length members = some (before, between) ∧
      turns held later.length between = some (later, after) := by
  induction before generalizing count members with
  | nil =>
      rw [List.nil_append] at taken
      refine ⟨members, List.Perm.refl _, rfl, ?_⟩
      rwa [turns_length taken]
  | cons first rest ih =>
      cases count with
      | zero => cases taken
      | succ count =>
          obtain ⟨served, others, between, head, tail, same⟩ := turns_succ taken
          obtain ⟨rfl, rfl⟩ := List.cons.inj same
          obtain ⟨last, perm, front, back⟩ := ih tail
          exact ⟨last, perm.trans (turn_perm head), turns_cons head front, back⟩

theorem turns_append {first second : Nat} {members between after front back : List Member}
    (begun : turns held first members = some (front, between))
    (ended : turns held second between = some (back, after)) :
    turns held (first + second) members = some (front ++ back, after) := by
  induction first generalizing members front with
  | zero =>
      cases begun
      rwa [Nat.zero_add]
  | succ first ih =>
      obtain ⟨served, later, mid, head, tail, rfl⟩ := turns_succ begun
      rw [Nat.succ_add]
      exact turns_cons head (ih tail)

theorem turns_pass (front : List Member) : ∀ back : List Member, held ∉ front →
    turns held front.length (front ++ back) = some (front, back ++ front) := by
  induction front with
  | nil =>
      intro back _
      rw [List.append_nil]
      rfl
  | cons first rest ih =>
      intro back away
      have free : first ≠ held := fun same => away (same ▸ List.mem_cons_self)
      have head : turn held (first :: rest ++ back) = some (first, rest ++ (back ++ [first])) := by
        rw [List.cons_append, turn, if_neg free, List.append_assoc]
      have tail := ih (back ++ [first]) fun member => away (List.mem_cons_of_mem _ member)
      rw [List.append_assoc, List.singleton_append] at tail
      exact turns_cons head tail

/-- Once the held member is first, the second is served for good. -/
theorem turns_stuck (second : Member) (rest : List Member) (count : Nat) :
    turns held count (held :: second :: rest) =
      some (List.replicate count second, held :: second :: rest) := by
  induction count with
  | zero => rfl
  | succ count ih =>
      have head : turn held (held :: second :: rest) = some (second, held :: second :: rest) := by
        rw [turn, if_pos rfl, List.head?_cons, Option.map_some]
      exact turns_cons head ih

def EveryRow (held : Member) (members : List Member) : Prop :=
  ∀ count served after, turns held count members = some (served, after) →
    ∀ before row rest, served = before ++ row ++ rest → row.length = members.length →
      ∀ x ∈ members, x ≠ held → x ∈ row

theorem row_of_free {members : List Member} (free : held ∉ members) : EveryRow held members := by
  rintro count _ after taken before row rest rfl whole x member _
  rw [List.append_assoc] at taken
  obtain ⟨between, perm, _, later⟩ := turns_split before taken
  obtain ⟨last, _, here, _⟩ := turns_split row later
  have served := turns_pass between [] fun inside => free (perm.mem_iff.mp inside)
  rw [List.append_nil, perm.length_eq, ← whole, here] at served
  rw [(Prod.mk.inj (Option.some.inj served)).1]
  exact perm.mem_iff.mpr member

omit [DecidableEq Member] in
theorem pair_of_short {members : List Member} {a b : Member} (short : members.length ≤ 2)
    (a_listed : a ∈ members) (b_listed : b ∈ members) (other : b ≠ a) :
    members = [a, b] ∨ members = [b, a] := by
  cases members with
  | nil => cases b_listed
  | cons x more =>
      cases more with
      | nil =>
          rw [List.mem_singleton] at a_listed b_listed
          exact absurd (b_listed.trans a_listed.symm) other
      | cons y others =>
          obtain rfl : others = [] := List.length_eq_zero_iff.mp (by
            simp only [List.length_cons] at short
            omega)
          simp only [List.mem_cons, List.not_mem_nil, or_false] at a_listed b_listed
          rcases a_listed with rfl | rfl
          · exact Or.inl (by rw [b_listed.resolve_left other])
          · exact Or.inr (by rw [b_listed.resolve_right other])

theorem row_of_pair {members : List Member} (short : members.length ≤ 2) (inside : held ∈ members) :
    EveryRow held members := by
  rintro count _ after taken before row rest rfl whole x member other
  rw [List.append_assoc] at taken
  obtain ⟨between, perm, _, later⟩ := turns_split before taken
  obtain ⟨last, _, here, _⟩ := turns_split row later
  rw [← perm.length_eq] at short
  have pair := pair_of_short short (perm.mem_iff.mpr inside) (perm.mem_iff.mpr member) other
  cases row with
  | nil =>
      have empty : members = [] := List.length_eq_zero_iff.mp whole.symm
      rw [empty] at member
      cases member
  | cons first others =>
      obtain ⟨served, _, _, head, _, same⟩ := turns_succ here
      have first_served : served = x := by
        rcases pair with rfl | rfl
        · rw [turn, if_pos rfl] at head
          exact (Prod.mk.inj (Option.some.inj head)).1.symm
        · rw [turn, if_neg other] at head
          exact (Prod.mk.inj (Option.some.inj head)).1.symm
      rw [(List.cons.inj same).1, first_served]
      exact List.mem_cons_self

theorem not_row_of_held {members : List Member} (distinct : members.Nodup) (inside : held ∈ members)
    (long : 3 ≤ members.length) : ¬ EveryRow held members := by
  intro fair
  obtain ⟨front, back, rfl⟩ := List.append_of_mem inside
  have rotated : (held :: (back ++ front)).Perm (front ++ held :: back) := by
    rw [← List.cons_append]
    exact List.perm_append_comm
  have front_free : held ∉ front := by
    intro member
    exact (List.nodup_append.mp distinct).2.2 held member held List.mem_cons_self rfl
  have reached := turns_pass front (held :: back) front_free
  cases others : back ++ front with
  | nil =>
      rw [others] at rotated
      rw [← rotated.length_eq] at long
      simp at long
  | cons second rest =>
      rw [others] at rotated
      rw [List.cons_append, others] at reached
      cases rest with
      | nil =>
          rw [← rotated.length_eq] at long
          simp at long
      | cons third rest =>
          have spread := rotated.nodup_iff.mpr distinct
          simp only [List.nodup_cons, List.mem_cons, not_or] at spread
          have stuck := turns_append reached
            (turns_stuck second (third :: rest) (front ++ held :: back).length)
          have served := fair _ _ _ stuck front _ [] (List.append_nil _).symm
            (List.length_replicate) third (rotated.mem_iff.mp (by simp)) (Ne.symm spread.1.2.1)
          exact spread.2.1.1 (List.eq_of_mem_replicate served).symm

/-- The exact condition for fairness. -/
theorem every_row_iff {members : List Member} (distinct : members.Nodup) :
    EveryRow held members ↔ ¬ (held ∈ members ∧ 3 ≤ members.length) := by
  constructor
  · rintro fair ⟨inside, long⟩
    exact not_row_of_held distinct inside long fair
  · intro fits
    by_cases inside : held ∈ members
    · exact row_of_pair (by by_contra long; exact fits ⟨inside, Nat.lt_of_not_le long⟩) inside
    · exact row_of_free inside

end MulticoreRtos.Rotation
