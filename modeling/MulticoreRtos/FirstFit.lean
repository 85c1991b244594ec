import Mathlib.Algebra.Group.Action.Defs
import Mathlib.Algebra.BigOperators.Group.Finset.Basic
import Mathlib.Algebra.GroupWithZero.Nat
import Mathlib.Algebra.Order.BigOperators.Group.Finset
import Mathlib.Order.Interval.Finset.Nat
import Mathlib.Data.List.Range

/-!
An allocator without a data structure: the arena is cut into slots of the size
asked for, and the first slot that no held extent meets is taken. Sizes that
divide one another keep two extents nested or apart, and then counting bytes is
enough to know that a slot is left.
-/

namespace MulticoreRtos.FirstFit

structure Extent where
  start : Nat
  bytes : Nat

def Apart (a b : Extent) : Prop := a.start + a.bytes ≤ b.start ∨ b.start + b.bytes ≤ a.start

instance (a b : Extent) : Decidable (Apart a b) := inferInstanceAs (Decidable (_ ∨ _))

def slot (bytes k : Nat) : Extent := ⟨k * bytes, bytes⟩

def Vacant (held : List Extent) (bytes k : Nat) : Prop := ∀ extent ∈ held, Apart (slot bytes k) extent

instance (held : List Extent) (bytes k : Nat) : Decidable (Vacant held bytes k) :=
  inferInstanceAs (Decidable (∀ extent ∈ held, _))

def firstVacant (held : List Extent) (bytes count : Nat) : Option Nat :=
  (List.range count).find? fun k => Vacant held bytes k

def allocate (total : Nat) (held : List Extent) (bytes : Nat) : Option Extent :=
  (firstVacant held bytes (total / bytes)).map (slot bytes)

def usedBytes (held : List Extent) : Nat := (held.map Extent.bytes).sum

theorem firstVacant_some {held : List Extent} {bytes count k : Nat} :
    firstVacant held bytes count = some k ↔
      k < count ∧ Vacant held bytes k ∧ ∀ j < k, ¬ Vacant held bytes j := by
  simp only [firstVacant, List.find?_range_eq_some, decide_eq_true_eq, List.mem_range,
    Bool.not_eq_true', decide_eq_false_iff_not]
  tauto

theorem firstVacant_none {held : List Extent} {bytes count : Nat} :
    firstVacant held bytes count = none ↔ ∀ k < count, ¬ Vacant held bytes k := by
  simp [firstVacant]

section Nesting
variable {a b : Extent}

theorem Apart.symm (apart : Apart a b) : Apart b a := Or.symm apart

theorem nested (divides : a.bytes ∣ b.bytes) (a_aligned : a.bytes ∣ a.start)
    (b_aligned : b.bytes ∣ b.start) (meets : ¬ Apart a b) :
    b.start ≤ a.start ∧ a.start + a.bytes ≤ b.start + b.bytes := by
  obtain ⟨ratio, b_size⟩ := divides
  obtain ⟨low, a_start⟩ := a_aligned
  obtain ⟨high, b_start⟩ := b_aligned
  unfold Apart at meets
  rw [b_size] at b_start meets ⊢
  rw [a_start, b_start] at meets ⊢
  rw [Nat.mul_assoc] at meets ⊢
  obtain ⟨below, above⟩ := not_or.mp meets
  have lower : ratio * high < low + 1 := by
    apply Nat.lt_of_mul_lt_mul_left (a := a.bytes)
    rw [Nat.mul_add, Nat.mul_one]
    exact Nat.lt_of_not_le below
  have upper : low < ratio * high + ratio := by
    apply Nat.lt_of_mul_lt_mul_left (a := a.bytes)
    rw [Nat.mul_add]
    exact Nat.lt_of_not_le above
  constructor
  · exact Nat.mul_le_mul_left _ (Nat.lt_succ_iff.mp lower)
  · calc a.bytes * low + a.bytes = a.bytes * (low + 1) := by rw [Nat.mul_add, Nat.mul_one]
      _ ≤ a.bytes * (ratio * high + ratio) := Nat.mul_le_mul_left _ upper
      _ = a.bytes * (ratio * high) + a.bytes * ratio := Nat.mul_add _ _ _

end Nesting

/-! Counting the bytes of the held extents, slot by slot. -/

def Extent.cells (extent : Extent) : Finset Nat :=
  Finset.Ico extent.start (extent.start + extent.bytes)

def cells (held : List Extent) : Finset Nat :=
  held.foldr (fun extent rest => extent.cells ∪ rest) ∅

theorem mem_cells {held : List Extent} {byte : Nat} :
    byte ∈ cells held ↔ ∃ extent ∈ held, byte ∈ extent.cells := by
  induction held with
  | nil => simp [cells]
  | cons extent rest ih =>
      simp only [cells, List.foldr_cons, Finset.mem_union, List.mem_cons, exists_eq_or_imp] at ih ⊢
      rw [ih]

theorem Apart.cells_disjoint {a b : Extent} (apart : Apart a b) : Disjoint a.cells b.cells := by
  rw [Finset.disjoint_left]
  intro byte in_a in_b
  simp only [Extent.cells, Finset.mem_Ico] at in_a in_b
  unfold Apart at apart
  omega

theorem card_cells {held : List Extent} (apart : held.Pairwise Apart) :
    (cells held).card = usedBytes held := by
  induction held with
  | nil => rfl
  | cons extent rest ih =>
      obtain ⟨head, tail⟩ := List.pairwise_cons.mp apart
      have separate : Disjoint extent.cells (cells rest) := by
        rw [Finset.disjoint_left]
        intro byte here there
        obtain ⟨other, member, inside⟩ := mem_cells.mp there
        exact Finset.disjoint_left.mp (head other member).cells_disjoint here inside
      have size : extent.cells.card = extent.bytes := by simp [Extent.cells]
      have joined : cells (extent :: rest) = extent.cells ∪ cells rest := rfl
      rw [joined, Finset.card_union_of_disjoint separate, ih tail, size]
      rfl

/-- The bytes that a held extent and a slot have in common. -/
def shared (extent : Extent) (bytes k : Nat) : Finset Nat := extent.cells ∩ (slot bytes k).cells

theorem slot_cells {bytes k byte : Nat} (positive : 0 < bytes) :
    byte ∈ (slot bytes k).cells ↔ byte / bytes = k := by
  simp only [Extent.cells, slot, Finset.mem_Ico]
  rw [Nat.div_eq_iff positive, Nat.mul_comm]
  omega

/-- If each of `count` slots shares `least` bytes with a held extent, that many
bytes are in use. -/
theorem crowded {held : List Extent} {bytes count least : Nat} (positive : 0 < bytes)
    (apart : held.Pairwise Apart)
    (met : ∀ k < count, ∃ extent ∈ held, least ≤ (shared extent bytes k).card) :
    count * least ≤ usedBytes held := by
  let inside := (cells held).filter fun byte => byte / bytes < count
  have maps : ∀ byte ∈ inside, byte / bytes ∈ Finset.range count := by
    intro byte member
    exact Finset.mem_range.mpr (Finset.mem_filter.mp member).2
  have each : ∀ k ∈ Finset.range count,
      least ≤ (inside.filter fun byte => byte / bytes = k).card := by
    intro k member
    have within := Finset.mem_range.mp member
    obtain ⟨extent, held_extent, enough⟩ := met k within
    refine enough.trans (Finset.card_le_card ?_)
    intro byte common
    obtain ⟨in_extent, in_slot⟩ := Finset.mem_inter.mp common
    have here := (slot_cells positive).mp in_slot
    refine Finset.mem_filter.mpr ⟨Finset.mem_filter.mpr ⟨?_, here ▸ within⟩, here⟩
    exact mem_cells.mpr ⟨extent, held_extent, in_extent⟩
  calc count * least = (Finset.range count).card • least := by rw [Finset.card_range, smul_eq_mul]
    _ ≤ ∑ k ∈ Finset.range count, (inside.filter fun byte => byte / bytes = k).card :=
        Finset.card_nsmul_le_sum _ _ _ each
    _ = inside.card := (Finset.card_eq_sum_card_fiberwise maps).symm
    _ ≤ (cells held).card := Finset.card_filter_le _ _
    _ = usedBytes held := card_cells apart

/-- Sizes that divide one another, each extent at a multiple of its own. -/
structure Aligned (held : List Extent) (bytes : Nat) : Prop where
  start : ∀ extent ∈ held, extent.bytes ∣ extent.start
  size : ∀ extent ∈ held, extent.bytes ∣ bytes ∨ bytes ∣ extent.bytes

theorem Aligned.shares {held : List Extent} {bytes : Nat} (aligned : Aligned held bytes)
    {extent : Extent} (member : extent ∈ held) {k : Nat} (meets : ¬ Apart (slot bytes k) extent) :
    min extent.bytes bytes ≤ (shared extent bytes k).card := by
  have slot_aligned : (slot bytes k).bytes ∣ (slot bytes k).start := Nat.dvd_mul_left bytes k
  have start := aligned.start extent member
  rcases aligned.size extent member with inner | outer
  · -- the extent lies in the slot
    obtain ⟨low, high⟩ := nested (b := slot bytes k) inner start slot_aligned
      fun apart => meets apart.symm
    have whole : shared extent bytes k = extent.cells :=
      Finset.inter_eq_left.mpr (Finset.Ico_subset_Ico low high)
    rw [whole]
    simp [Extent.cells]
  · -- the slot lies in the extent
    obtain ⟨low, high⟩ := nested (a := slot bytes k) outer slot_aligned start meets
    have whole : shared extent bytes k = (slot bytes k).cells :=
      Finset.inter_eq_right.mpr (Finset.Ico_subset_Ico low high)
    rw [whole]
    simp [Extent.cells, slot]

/-- With no held extent under `least` bytes, a slot is left as long as fewer
than `least` bytes for each slot are in use. -/
theorem slot_left {held : List Extent} {bytes count least : Nat} (positive : 0 < bytes)
    (apart : held.Pairwise Apart) (aligned : Aligned held bytes)
    (large : ∀ extent ∈ held, least ≤ extent.bytes) (small : least ≤ bytes)
    (room : usedBytes held < count * least) : ∃ k < count, Vacant held bytes k := by
  by_contra full
  have met : ∀ k < count, ∃ extent ∈ held, least ≤ (shared extent bytes k).card := by
    intro k within
    have taken : ¬ Vacant held bytes k := fun vacant => full ⟨k, within, vacant⟩
    obtain ⟨extent, member, meets⟩ : ∃ extent ∈ held, ¬ Apart (slot bytes k) extent := by
      simpa only [Vacant, not_forall, exists_prop] using taken
    exact ⟨extent, member, (le_min (large extent member) small).trans (aligned.shares member meets)⟩
  exact Nat.not_lt.mpr (crowded positive apart met) room

/-- The held extents fill the arena up to `mark` and leave the rest alone. -/
structure Packed (held : List Extent) (mark : Nat) : Prop where
  below : ∀ extent ∈ held, extent.start + extent.bytes ≤ mark
  filled : ∀ byte < mark, ∃ extent ∈ held, byte ∈ extent.cells

theorem packed_nil : Packed [] 0 := ⟨by simp, by simp⟩

theorem Packed.allocate {held : List Extent} {mark total bytes : Nat} (packed : Packed held mark)
    (positive : 0 < bytes) (divides : bytes ∣ mark) (room : mark + bytes ≤ total) :
    FirstFit.allocate total held bytes = some ⟨mark, bytes⟩ ∧
      Packed (⟨mark, bytes⟩ :: held) (mark + bytes) := by
  obtain ⟨k, rfl⟩ := divides
  have within : k < total / bytes := by
    apply (Nat.le_div_iff_mul_le positive).mpr
    rw [Nat.succ_mul, Nat.mul_comm]
    exact room
  have vacant : Vacant held bytes k := by
    intro extent member
    have low := packed.below extent member
    rw [Nat.mul_comm] at low
    exact Or.inr low
  have earlier : ∀ j < k, ¬ Vacant held bytes j := by
    intro j before free_slot
    have inside : j * bytes < bytes * k := by
      rw [Nat.mul_comm]
      exact Nat.mul_lt_mul_of_pos_left before positive
    obtain ⟨extent, member, covered⟩ := packed.filled _ inside
    have shared := (Apart.cells_disjoint (free_slot extent member))
    have in_slot : j * bytes ∈ (slot bytes j).cells := by simp [Extent.cells, slot, positive]
    exact Finset.disjoint_left.mp shared in_slot covered
  constructor
  · rw [FirstFit.allocate, firstVacant_some.mpr ⟨within, vacant, earlier⟩, Option.map_some, slot,
      Nat.mul_comm]
  · constructor
    · intro extent member
      rcases List.mem_cons.mp member with rfl | old
      · exact le_rfl
      · exact (packed.below extent old).trans (Nat.le_add_right _ _)
    · intro byte low
      by_cases older : byte < bytes * k
      · obtain ⟨extent, member, covered⟩ := packed.filled byte older
        exact ⟨extent, List.mem_cons_of_mem _ member, covered⟩
      · exact ⟨_, List.mem_cons_self, Finset.mem_Ico.mpr ⟨Nat.not_lt.mp older, low⟩⟩

end MulticoreRtos.FirstFit
