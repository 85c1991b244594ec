import Mathlib.Algebra.BigOperators.Group.Finset.Piecewise

/-!
Counting the members of a finite population by the place each one stands at, and
what the move of one member does to the counts.
-/

namespace MulticoreRtos.Population

universe u v
variable {Member : Type u} {Place : Type v} [Fintype Member]

def tally (kind : Place → Bool) (place : Member → Place) : Nat :=
  (Finset.univ.filter fun member => kind (place member)).card

section Moves
variable (kind : Place → Bool) (place : Member → Place)

theorem tally_pos (member : Member) (here : kind (place member)) : 0 < tally kind place :=
  Finset.card_pos.mpr ⟨member, Finset.mem_filter.mpr ⟨Finset.mem_univ member, here⟩⟩

theorem tally_zero (nowhere : ∀ member, ¬ kind (place member)) : tally kind place = 0 :=
  Finset.card_eq_zero.mpr (Finset.filter_eq_empty_iff.mpr fun member _ => nowhere member)

theorem tally_split (first second : Place → Bool)
    (split : ∀ target, (kind target).toNat = (first target).toNat + (second target).toNat) :
    tally kind place = tally first place + tally second place := by
  have count (k : Place → Bool) : tally k place = ∑ m, (k (place m)).toNat := by
    rw [tally, Finset.card_filter]
    apply Finset.sum_congr rfl
    intro m _
    cases k (place m) <;> rfl
  rw [count, count, count, ← Finset.sum_add_distrib]
  exact Finset.sum_congr rfl fun m _ => split (place m)

variable [DecidableEq Member]

/-- One member's share changes and the others keep theirs. -/
theorem sum_changed {share share' : Member → Nat} (member : Member)
    (others : ∀ m, m ≠ member → share' m = share m) :
    ∑ m, share' m + share member = ∑ m, share m + share' member := by
  have rest : ∑ m ∈ Finset.univ.erase member, share' m = ∑ m ∈ Finset.univ.erase member, share m :=
    Finset.sum_congr rfl fun m other => others m (Finset.ne_of_mem_erase other)
  rw [← Finset.add_sum_erase _ share' (Finset.mem_univ member),
    ← Finset.add_sum_erase _ share (Finset.mem_univ member), rest]
  ac_rfl

theorem tally_update (member : Member) (target : Place) :
    tally kind (Function.update place member target) + (kind (place member)).toNat =
      tally kind place + (kind target).toNat := by
  have others : ∑ m ∈ Finset.univ.erase member,
        (if kind (Function.update place member target m) then 1 else 0) =
      ∑ m ∈ Finset.univ.erase member, (if kind (place m) then 1 else 0) := by
    apply Finset.sum_congr rfl
    intro m other
    rw [Function.update_of_ne (Finset.ne_of_mem_erase other)]
  have weight (b : Bool) : (if b then 1 else 0) = b.toNat := by cases b <;> rfl
  rw [tally, tally, Finset.card_filter, Finset.card_filter,
    ← Finset.add_sum_erase _ _ (Finset.mem_univ member),
    ← Finset.add_sum_erase _ (fun m => if kind (place m) then 1 else 0) (Finset.mem_univ member),
    others, Function.update_self, weight, weight]
  ac_rfl

end Moves

end MulticoreRtos.Population
