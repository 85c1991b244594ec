import Mathlib.Data.Nat.Log
import Mathlib.Tactic.Ring

/-!
A complete binary tree stored in an array: node `i` has the children `2 * i + 1`
and `2 * i + 2`. The node at position `k` of level `d` stands for the `k`-th of
the `2 ^ d` equal blocks of an interval of length `2 ^ height`. Two blocks meet
only when one node lies above the other.
-/

namespace MulticoreRtos.DyadicTree

def left (i : Nat) : Nat := 2 * i + 1
def right (i : Nat) : Nat := 2 * i + 2
def up (i : Nat) : Nat := (i - 1) / 2

def AtLevel (level i : Nat) : Prop := 2 ^ level ≤ i + 1 ∧ i + 1 < 2 ^ (level + 1)

/-- Node `a` is met by climbing `steps` edges from `i`. -/
def Above (steps a i : Nat) : Prop := a + 1 = (i + 1) / 2 ^ steps

@[simp] theorem up_left (i : Nat) : up (left i) = i := by
  unfold up left; omega

@[simp] theorem up_right (i : Nat) : up (right i) = i := by
  unfold up right; omega

theorem left_or_right (i : Nat) (inner : 0 < i) : i = left (up i) ∨ i = right (up i) := by
  unfold left right up; omega

theorem up_lt (i : Nat) (inner : 0 < i) : up i < i := by
  unfold up; omega

theorem level_zero (i : Nat) : AtLevel 0 i ↔ i = 0 := by
  unfold AtLevel; omega

theorem level_left (level i : Nat) (at_level : AtLevel level i) :
    AtLevel (level + 1) (left i) := by
  unfold AtLevel left at *
  simp only [pow_succ] at *
  omega

theorem level_right (level i : Nat) (at_level : AtLevel level i) :
    AtLevel (level + 1) (right i) := by
  unfold AtLevel right at *
  simp only [pow_succ] at *
  omega

theorem level_up (level i : Nat) (at_level : AtLevel (level + 1) i) : AtLevel level (up i) := by
  unfold AtLevel up at *
  simp only [pow_succ] at *
  omega

theorem level_log (i : Nat) : AtLevel (Nat.log 2 (i + 1)) i :=
  ⟨Nat.pow_log_le_self 2 (Nat.succ_ne_zero i), Nat.lt_pow_succ_log_self Nat.one_lt_two (i + 1)⟩

theorem level_unique (level i : Nat) (at_level : AtLevel level i) :
    Nat.log 2 (i + 1) = level :=
  Nat.log_eq_of_pow_le_of_lt_pow at_level.1 at_level.2

theorem level_bound (level height i : Nat) (at_level : AtLevel level i)
    (shallow : level ≤ height) : i + 1 < 2 ^ (height + 1) :=
  at_level.2.trans_le (Nat.pow_le_pow_right Nat.two_pos (Nat.succ_le_succ shallow))

theorem above_zero (i : Nat) : Above 0 i i := by simp [Above]

theorem above_succ (steps a i : Nat) (inner : 0 < i) :
    Above (steps + 1) a i ↔ Above steps a (up i) := by
  have halved : up i + 1 = (i + 1) / 2 := by unfold up; omega
  unfold Above
  rw [halved, Nat.div_div_eq_div_mul, pow_succ, Nat.mul_comm]

theorem above_trans (first second a b i : Nat) (lower : Above first b i)
    (upper : Above second a b) : Above (first + second) a i := by
  unfold Above at *
  rw [upper, lower, Nat.div_div_eq_div_mul, pow_add]

theorem above_le (steps a i : Nat) (above : Above steps a i) : a ≤ i := by
  have bound := Nat.div_le_self (i + 1) (2 ^ steps)
  unfold Above at above
  omega

theorem above_level (steps level a i : Nat) (above : Above steps a i) (at_level : AtLevel level a) :
    AtLevel (level + steps) i := by
  unfold Above at above
  unfold AtLevel at *
  rw [above] at at_level
  rw [pow_add, show level + steps + 1 = level + 1 + steps by omega, pow_add]
  exact ⟨(Nat.le_div_iff_mul_le (Nat.two_pow_pos _)).mp at_level.1,
    (Nat.div_lt_iff_lt_mul (Nat.two_pow_pos _)).mp at_level.2⟩

theorem children_apart (first second level a i : Nat) (at_level : AtLevel level a)
    (below_left : Above first (left a) i) (below_right : Above second (right a) i) : False := by
  have left_depth := above_level first _ _ i below_left (level_left level a at_level)
  have right_depth := above_level second _ _ i below_right (level_right level a at_level)
  have same : first = second := by
    have unique := (level_unique _ i left_depth).symm.trans (level_unique _ i right_depth)
    omega
  subst same
  unfold Above left right at *
  omega

theorem above_child (steps a j : Nat) (above : Above (steps + 1) a j) :
    ∃ child, Above steps child j ∧ (child = left a ∨ child = right a) := by
  have halves : (j + 1) / 2 ^ steps / 2 = a + 1 := by
    rw [Nat.div_div_eq_div_mul, ← pow_succ]
    exact above.symm
  refine ⟨(j + 1) / 2 ^ steps - 1, ?_, ?_⟩
  · unfold Above
    omega
  · unfold left right
    omega

def Ancestor (a i : Nat) : Prop := ∃ steps, Above (steps + 1) a i

theorem ancestor_lt (a i : Nat) (above : Ancestor a i) : a < i := by
  obtain ⟨steps, above⟩ := above
  have tall : 1 < 2 ^ (steps + 1) := Nat.one_lt_two_pow (Nat.succ_ne_zero steps)
  have less : (i + 1) / 2 ^ (steps + 1) < i + 1 := Nat.div_lt_self (Nat.succ_pos i) tall
  unfold Above at above
  omega

theorem ancestor_up (a i : Nat) (inner : 0 < i) : Ancestor a i ↔ a = up i ∨ Ancestor a (up i) := by
  constructor
  · rintro ⟨steps, above⟩
    have climbed := (above_succ steps a i inner).mp above
    cases steps with
    | zero => exact Or.inl (by unfold Above at climbed; simpa using climbed)
    | succ steps => exact Or.inr ⟨steps, climbed⟩
  · rintro (rfl | ⟨steps, above⟩)
    · exact ⟨0, (above_succ 0 _ i inner).mpr (above_zero _)⟩
    · exact ⟨steps + 1, (above_succ _ a i inner).mpr above⟩

theorem ancestor_trans (a b i : Nat) (upper : Ancestor a b) (lower : Ancestor b i) :
    Ancestor a i := by
  obtain ⟨first, lower⟩ := lower
  obtain ⟨second, upper⟩ := upper
  exact ⟨first + second + 1, by
    have joined := above_trans _ _ a b i lower upper
    rwa [show first + 1 + (second + 1) = first + second + 1 + 1 by omega] at joined⟩

theorem ancestor_child (a i : Nat) (above : Ancestor a i) :
    ∃ child, (child = i ∨ Ancestor child i) ∧ (child = left a ∨ child = right a) := by
  obtain ⟨steps, above⟩ := above
  obtain ⟨child, reaches, side⟩ := above_child steps a i above
  refine ⟨child, ?_, side⟩
  cases steps with
  | zero => exact Or.inl (by unfold Above at reaches; simpa using reaches)
  | succ steps => exact Or.inr ⟨steps, reaches⟩

theorem root_ancestor (i : Nat) (inner : 0 < i) : Ancestor 0 i := by
  induction i using Nat.strongRecOn with
  | ind i ih =>
      rw [ancestor_up 0 i inner]
      by_cases top : up i = 0
      · exact Or.inl top.symm
      · exact Or.inr (ih (up i) (up_lt i inner) (Nat.pos_of_ne_zero top))

/-! Blocks of an interval of length `2 ^ height`. -/
section Blocks
variable (height : Nat)

def blockBytes (i : Nat) : Nat := 2 ^ (height - Nat.log 2 (i + 1))

/-- The first byte of the block of node `i`, counted from the interval's start. -/
def blockStart (i : Nat) : Nat := (i + 1) * blockBytes height i - 2 ^ height

theorem blockBytes_at (level i : Nat) (at_level : AtLevel level i) :
    blockBytes height i = 2 ^ (height - level) := by
  rw [blockBytes, level_unique level i at_level]

theorem block_range (level i : Nat) (at_level : AtLevel level i) (shallow : level ≤ height) :
    2 ^ height ≤ (i + 1) * blockBytes height i ∧
      (i + 2) * blockBytes height i ≤ 2 ^ height + 2 ^ height := by
  have split : 2 ^ level * 2 ^ (height - level) = 2 ^ height := by
    rw [← pow_add, Nat.add_sub_cancel' shallow]
  rw [blockBytes_at height level i at_level]
  constructor
  · rw [← split]
    exact Nat.mul_le_mul_right _ at_level.1
  · have doubled : 2 ^ height + 2 ^ height = 2 ^ (level + 1) * 2 ^ (height - level) := by
      rw [pow_succ, Nat.mul_right_comm, split]; omega
    rw [doubled]
    exact Nat.mul_le_mul_right _ at_level.2

theorem block_inside (level i : Nat) (at_level : AtLevel level i) (shallow : level ≤ height) :
    blockStart height i + blockBytes height i ≤ 2 ^ height := by
  have range := block_range height level i at_level shallow
  unfold blockStart
  have grouped : (i + 2) * blockBytes height i =
      (i + 1) * blockBytes height i + blockBytes height i := by ring
  omega

theorem block_aligned (level i : Nat) (at_level : AtLevel level i) :
    blockBytes height i ∣ blockStart height i := by
  have divides : blockBytes height i ∣ 2 ^ height := by
    rw [blockBytes_at height level i at_level]
    exact Nat.pow_dvd_pow 2 (Nat.sub_le height level)
  exact Nat.dvd_sub (Nat.dvd_mul_left _ _) divides

theorem block_masked (level i : Nat) (at_level : AtLevel level i) (shallow : level ≤ height) :
    (i + 1) * blockBytes height i % 2 ^ height = blockStart height i := by
  have range := block_range height level i at_level shallow
  have positive : 0 < blockBytes height i := Nat.two_pow_pos _
  have grouped : (i + 2) * blockBytes height i =
      (i + 1) * blockBytes height i + blockBytes height i := by ring
  unfold blockStart
  rw [Nat.mod_eq_sub_mod range.1, Nat.mod_eq_of_lt (by omega)]

/-- Blocks that share a byte lie on one path to the root. -/
theorem overlap_above (upper lower a i byte : Nat) (a_level : AtLevel upper a)
    (i_level : AtLevel lower i) (order : upper ≤ lower) (shallow : lower ≤ height)
    (in_a : blockStart height a ≤ byte ∧ byte < blockStart height a + blockBytes height a)
    (in_i : blockStart height i ≤ byte ∧ byte < blockStart height i + blockBytes height i) :
    Above (lower - upper) a i := by
  have a_range := block_range height upper a a_level (order.trans shallow)
  have i_range := block_range height lower i i_level shallow
  have positive : 0 < 2 ^ (height - lower) := Nat.two_pow_pos _
  have i_bytes := blockBytes_at height lower i i_level
  have a_bytes : blockBytes height a = 2 ^ (lower - upper) * 2 ^ (height - lower) := by
    rw [blockBytes_at height upper a a_level, ← pow_add]
    congr 1
    omega
  unfold blockStart at in_a in_i
  rw [a_bytes] at in_a a_range
  rw [i_bytes] at in_i i_range
  have i_next : (i + 2) * 2 ^ (height - lower) =
      (i + 1) * 2 ^ (height - lower) + 2 ^ (height - lower) := by ring
  have a_next : (a + 2) * (2 ^ (lower - upper) * 2 ^ (height - lower)) =
      (a + 1) * (2 ^ (lower - upper) * 2 ^ (height - lower)) +
        2 ^ (lower - upper) * 2 ^ (height - lower) := by ring
  have low : (a + 1) * 2 ^ (lower - upper) < i + 2 := by
    apply Nat.lt_of_mul_lt_mul_right (a := 2 ^ (height - lower))
    rw [Nat.mul_assoc]
    omega
  have high : i + 1 < (a + 2) * 2 ^ (lower - upper) := by
    apply Nat.lt_of_mul_lt_mul_right (a := 2 ^ (height - lower))
    rw [Nat.mul_assoc]
    omega
  exact (Nat.div_eq_of_lt_le (by omega) high).symm

end Blocks

end MulticoreRtos.DyadicTree
