import Mathlib.Data.Nat.ModEq
import Mathlib.Logic.Function.Basic

/-!
A run of cells of a cyclic buffer of `size` cells: the cell `k` places behind
`start`, the values of `count` cells from `start` on, and what a store and the
moves of both ends do to them. The buffer is a map from indices to values.
-/

namespace MulticoreRtos.CyclicBuffer

universe u
variable {Value : Type u}

def cell (size start k : Nat) : Nat := (start + k) % size

def contents (size : Nat) (data : Nat → Value) : Nat → Nat → List Value
  | _, 0 => []
  | start, count + 1 => data start :: contents size data ((start + 1) % size) count

theorem cell_zero (size start : Nat) (inside : start < size) : cell size start 0 = start :=
  Nat.mod_eq_of_lt inside

theorem cell_next (size start k : Nat) : cell size ((start + 1) % size) k = cell size start (k + 1) := by
  rw [cell, cell, Nat.mod_add_mod, Nat.add_assoc, Nat.add_comm 1 k]

theorem cell_succ (size start k : Nat) : (cell size start k + 1) % size = cell size start (k + 1) := by
  rw [cell, cell, Nat.mod_add_mod, Nat.add_assoc]

theorem cell_inside (size start k : Nat) (positive : 0 < size) : cell size start k < size :=
  Nat.mod_lt _ positive

theorem cell_inj (size start i j : Nat) (i_inside : i < size) (j_inside : j < size)
    (same : cell size start i = cell size start j) : i = j := by
  have congruent : i ≡ j [MOD size] := Nat.ModEq.add_left_cancel' start same
  exact congruent.eq_of_lt_of_lt i_inside j_inside

/-- A full turn comes back to the start, and nothing shorter does. -/
theorem cell_start (size start k : Nat) (inside : start < size) (low : k ≤ size) :
    cell size start k = start ↔ k = 0 ∨ k = size := by
  constructor
  · intro same
    by_cases full : k = size
    · exact Or.inr full
    · left
      apply cell_inj size start k 0 (by omega) (by omega)
      rw [same, cell_zero size start inside]
  · rintro (rfl | rfl)
    · exact cell_zero size start inside
    · rw [cell, Nat.add_mod_right, Nat.mod_eq_of_lt inside]

theorem contents_length (size : Nat) (data : Nat → Value) (start count : Nat) :
    (contents size data start count).length = count := by
  induction count generalizing start with
  | zero => rfl
  | succ count ih => rw [contents, List.length_cons, ih]

theorem contents_push (size : Nat) (data : Nat → Value) (start count : Nat) (inside : start < size) :
    contents size data start (count + 1) =
      contents size data start count ++ [data (cell size start count)] := by
  induction count generalizing start with
  | zero => rw [contents, contents, contents, cell_zero size start inside, List.nil_append]
  | succ count ih =>
      have next_inside : (start + 1) % size < size := Nat.mod_lt _ (by omega)
      rw [contents, ih _ next_inside, contents, cell_next, List.cons_append]

theorem contents_store (size : Nat) (data : Nat → Value) (start count index : Nat) (value : Value)
    (inside : start < size) (apart : ∀ k < count, cell size start k ≠ index) :
    contents size (Function.update data index value) start count = contents size data start count := by
  induction count generalizing start with
  | zero => rfl
  | succ count ih =>
      have first : start ≠ index := by
        have here := apart 0 (Nat.succ_pos count)
        rwa [cell_zero size start inside] at here
      have rest : ∀ k < count, cell size ((start + 1) % size) k ≠ index := by
        intro k low
        rw [cell_next]
        exact apart (k + 1) (by omega)
      rw [contents, contents, Function.update_of_ne first, ih _ (Nat.mod_lt _ (by omega)) rest]

end MulticoreRtos.CyclicBuffer
