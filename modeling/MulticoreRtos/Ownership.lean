import MulticoreRtos.Serialized

/-!
The heap blocks behind the threads. Every thread and idle thread owns two live
blocks, one for its TCB and one for its stack, and no two of these share an
address. So the next TCB `malloc` returns is nobody's, and `kill` frees no block
of a thread that stays.
-/

namespace MulticoreRtos.Serialized

open Scheduler
open Heap (null nodeAddr heapTreeNodeCnt nodeAddr_leaf nodeBlock_inside)

variable {Sem : Type}

/-- A TCB lies at the address of a node of the heap tree. -/
def Layout.slots (layout : Layout Sem) : Slots where
  addresses := (Finset.range heapTreeNodeCnt).image (nodeAddr layout.place.heapPtr)
  present := by
    intro member
    obtain ⟨i, inside, same⟩ := Finset.mem_image.mp member
    exact (nodeAddr_leaf layout.place i (Finset.mem_range.mp inside)).1 same
  few := by
    have bound := Finset.card_image_le (s := Finset.range heapTreeNodeCnt)
      (f := nodeAddr layout.place.heapPtr)
    rwa [Finset.card_range] at bound

theorem Layout.node_slot (layout : Layout Sem) (i : Nat) (inside : i < heapTreeNodeCnt) :
    nodeAddr layout.place.heapPtr i ∈ layout.slots.addresses :=
  Finset.mem_image_of_mem _ (Finset.mem_range.mpr inside)

theorem Layout.blackHole_outside (layout : Layout Sem) :
    layout.blackHole ∉ layout.slots.addresses := by
  intro member
  obtain ⟨i, inside, same⟩ := Finset.mem_image.mp member
  obtain ⟨low, high, _⟩ := nodeBlock_inside layout.place i (Finset.mem_range.mp inside)
  have positive : 0 < DyadicTree.blockBytes Heap.heapAddrLen i := Nat.two_pow_pos _
  have apart := layout.outside
  omega

inductive Part where
  | tcb
  | stack
  deriving DecidableEq

def pointer (stack : Nat → Nat) (t : Nat) : Part → Nat
  | .tcb => t
  | .stack => stack t

structure Owned (stack : Nat → Nat) (holder : Nat → Prop) (blocks : List Heap.Block) : Prop where
  held : ∀ t part, holder t → ∃ block ∈ blocks, block.ptr = pointer stack t part
  distinct : ∀ t u part other, holder t → holder u →
    pointer stack t part = pointer stack u other → t = u ∧ part = other

section Owned
variable {stack stack' : Nat → Nat} {holder holder' : Nat → Prop} {blocks blocks' : List Heap.Block}

theorem Owned.shrink (owned : Owned stack holder blocks) (fewer : ∀ t, holder' t → holder t)
    (kept : ∀ t part, holder' t → ∀ block ∈ blocks, block.ptr = pointer stack t part →
      block ∈ blocks') : Owned stack holder' blocks' := by
  constructor
  · intro t part holds
    obtain ⟨block, member, same⟩ := owned.held t part (fewer t holds)
    exact ⟨block, kept t part holds block member same, same⟩
  · exact fun t u part other first second =>
      owned.distinct t u part other (fewer t first) (fewer u second)

theorem Owned.grow (owned : Owned stack holder blocks) {new block : Nat}
    (tcb_fresh : ∀ old ∈ blocks, old.ptr ≠ new) (block_fresh : ∀ old ∈ blocks, old.ptr ≠ block)
    (apart : new ≠ block) (more : ∀ t, holder' t → t = new ∨ holder t)
    (kept : ∀ old ∈ blocks, old ∈ blocks') (tcb_held : ∃ b ∈ blocks', b.ptr = new)
    (block_held : ∃ b ∈ blocks', b.ptr = block) :
    Owned (Function.update stack new block) holder' blocks' := by
  have old_pointer (t : Nat) (part : Part) (holds : holder t) :
      pointer (Function.update stack new block) t part = pointer stack t part ∧
        pointer stack t part ≠ new ∧ pointer stack t part ≠ block := by
    obtain ⟨tcb, tcb_member, tcb_ptr⟩ := owned.held t .tcb holds
    have other : t ≠ new := fun same => tcb_fresh tcb tcb_member (tcb_ptr.trans same)
    obtain ⟨b, member, ptr⟩ := owned.held t part holds
    refine ⟨?_, ptr ▸ tcb_fresh b member, ptr ▸ block_fresh b member⟩
    cases part with
    | tcb => rfl
    | stack => exact Function.update_of_ne other _ _
  have new_pointer (part : Part) : pointer (Function.update stack new block) new part = new ∨
      pointer (Function.update stack new block) new part = block := by
    cases part with
    | tcb => exact Or.inl rfl
    | stack => exact Or.inr (Function.update_self _ _ _)
  constructor
  · intro t part holds
    rcases more t holds with rfl | old
    · rcases new_pointer part with same | same <;> rw [same] <;> assumption
    · obtain ⟨b, member, ptr⟩ := owned.held t part old
      exact ⟨b, kept b member, ptr.trans (old_pointer t part old).1.symm⟩
  · intro t u part other first second same
    rcases more t first with rfl | t_old
    · rcases more u second with rfl | u_old
      · cases part <;> cases other
        · exact ⟨rfl, rfl⟩
        · exact absurd (same.trans (Function.update_self _ _ _)) apart
        · exact absurd (same.symm.trans (Function.update_self _ _ _)) apart
        · exact ⟨rfl, rfl⟩
      · obtain ⟨kept_ptr, not_tcb, not_block⟩ := old_pointer u other u_old
        rw [kept_ptr] at same
        rcases new_pointer part with here | here
        · exact absurd (same.symm.trans here) not_tcb
        · exact absurd (same.symm.trans here) not_block
    · obtain ⟨t_kept, not_tcb, not_block⟩ := old_pointer t part t_old
      rw [t_kept] at same
      rcases more u second with rfl | u_old
      · rcases new_pointer other with here | here
        · exact absurd (same.trans here) not_tcb
        · exact absurd (same.trans here) not_block
      · rw [(old_pointer u other u_old).1] at same
        exact owned.distinct t u part other t_old u_old same

end Owned

/-! `malloc` and `free` on tracked heaps -/

section Blocks
variable {place : Heap.Placement} {heap : Heap.State}

theorem same_address_meets {a b : Heap.Block} (a_bytes : 0 < a.bytes) (b_bytes : 0 < b.bytes)
    (apart : Heap.Apart a b) : b.ptr ≠ a.ptr := by
  unfold Heap.Apart at apart
  omega

/-- A spared `malloc` completes; it fails and changes nothing, or returns the
address of a node that no live block has. -/
theorem allocate_spec (tracked : Heap.Tracked place heap) {size : Nat}
    (spared : Heap.Spared heap (.malloc size)) :
    ∃ after ptr, allocate place heap size = some (after, ptr) ∧ Heap.Tracked place after ∧
      (ptr = null ∧ after = heap ∨
        ∃ i < heapTreeNodeCnt, ptr = nodeAddr place.heapPtr i ∧
          after.live = ⟨ptr, Heap.blockSizeFor size⟩ :: heap.live ∧
          ∀ old ∈ heap.live, old.ptr ≠ ptr) := by
  rcases Heap.malloc_serves tracked size spared with failed | ⟨tree, i, answer, inside, bytes, kept,
    apart⟩
  · refine ⟨heap, null, ?_, tracked, Or.inl ⟨rfl, rfl⟩⟩
    simp [allocate, Heap.step, failed]
  · have found := (nodeAddr_leaf place i inside).1
    refine ⟨⟨tree, Heap.nodeBlock place.heapPtr i :: heap.live⟩, nodeAddr place.heapPtr i, ?_, kept,
      Or.inr ⟨i, inside, rfl, ?_, ?_⟩⟩
    · simp [allocate, Heap.step, answer, found, bytes, Heap.nodeBlock]
    · rw [bytes]
      rfl
    · intro old member
      obtain ⟨j, _, same⟩ := tracked.live old member
      apply same_address_meets (Nat.two_pow_pos _) _ (apart old member)
      rw [same]
      exact Nat.two_pow_pos _

theorem release_spec (tracked : Heap.Tracked place heap) (ptr : Nat) :
    ∃ after, Heap.step place heap (.free ptr) = some after ∧ Heap.Tracked place after ∧
      after.live = heap.live.filter fun block => block.ptr ≠ ptr := by
  obtain ⟨tree, answer, freed, _⟩ := Heap.free_spec tracked.wf ptr
  have stepped : Heap.step place heap (.free ptr) =
      some ⟨tree, heap.live.filter fun block => block.ptr ≠ ptr⟩ := by
    simp [Heap.step, freed]
  exact ⟨_, stepped, Heap.tracked_step place heap (.free ptr) _ tracked trivial stepped, rfl⟩

end Blocks

end MulticoreRtos.Serialized
