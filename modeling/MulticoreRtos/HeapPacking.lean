import MulticoreRtos.HeapRefinement

/-!
When `malloc` cannot fail. The bytes that `heap_stats` counts as used are spread
over the aligned blocks of the size asked for, and a block is left over as long
as they are too few to touch each of them. Requests in descending order leave no
gap at all.
-/

namespace MulticoreRtos.Heap

open DyadicTree Transition

theorem stats_of_run (place : Placement) {s : State}
    (reached : Reaches (step place) Modest (· = initial) s) :
    heapStats s.tree = some ⟨heapSize, FirstFit.usedBytes (extents place.heapPtr s.live),
      heapSize - FirstFit.usedBytes (extents place.heapPtr s.live)⟩ := by
  obtain ⟨before, distinct⟩ := run_distinct reached
  have used : usedBelow s.tree heapTreeLevelCnt 0 0 =
      FirstFit.usedBytes (extents place.heapPtr s.live) := by
    rw [usedBelow_sum _ _ _ _ ((level_zero 0).mpr rfl), FirstFit.usedBytes, extents, List.map_map,
      ← ((before.leaves_live distinct).map (FirstFit.Extent.bytes ∘ extentOf place.heapPtr)).sum_eq,
      List.map_map]
    rfl
  rw [heapStats_used before.tracked.wf.shaped, used]

theorem Mirrors.aligned {place : Placement} {s : State} (mirrors : Mirrors place s) (level : Nat) :
    FirstFit.Aligned (extents place.heapPtr s.live) (levelBytes level) := by
  have node : ∀ extent ∈ extents place.heapPtr s.live, ∃ i < heapTreeNodeCnt,
      extent = extentOf place.heapPtr (nodeBlock place.heapPtr i) := by
    intro extent member
    obtain ⟨block, live, rfl⟩ := List.mem_map.mp member
    obtain ⟨i, leaf, rfl⟩ := mirrors.exact.tracked.live block live
    exact ⟨i, mirrors.exact.tracked.wf.shaped.node_inside i leaf.1, rfl⟩
  constructor
  · intro extent member
    obtain ⟨i, inside, rfl⟩ := node extent member
    exact (nodeBlock_inside place i inside).2.2
  · intro extent member
    obtain ⟨i, _, rfl⟩ := node extent member
    rcases Nat.le_total (heapAddrLen - Nat.log 2 (i + 1)) (heapAddrLen - level) with order | order
    · exact Or.inl (Nat.pow_dvd_pow 2 order)
    · exact Or.inr (Nat.pow_dvd_pow 2 order)

/-- A request is served while the blocks in use, none of them under `least`
bytes, take up less than `least` bytes for each aligned block of the size it
needs. With the smallest size for `least` this bounds what fragmentation can
cost; with the size of the request it says that larger blocks cost nothing. -/
theorem served_when_room (place : Placement) (s : State)
    (reached : Reaches (step place) Modest (· = initial) s) (size least : Nat)
    (modest : size ≤ heapSize / 2) (large : ∀ block ∈ s.live, least ≤ block.bytes)
    (small : least ≤ blockSizeFor size) :
    ∃ stats, heapStats s.tree = some stats ∧
      (stats.used < heapSize / blockSizeFor size * least →
        ∃ after ptr, malloc place.heapPtr s.tree size = some (after, ptr) ∧ ptr ≠ null) := by
  have mirrors := run_mirrors place reached
  refine ⟨_, stats_of_run place reached, fun room => ?_⟩
  obtain ⟨_, level, _, shallow, bytes⟩ := modest_level size modest
  have searched := malloc_allocates mirrors size modest
  have positive : 0 < levelBytes level := Nat.two_pow_pos _
  have separate : (extents place.heapPtr s.live).Pairwise FirstFit.Apart := by
    refine List.pairwise_map.mpr (mirrors.apart.imp_of_mem fun a_live b_live apart => ?_)
    exact (extentOf_apart place.heapPtr (mirrors.low a_live) (mirrors.low b_live)).mpr apart
  have sizes : ∀ extent ∈ extents place.heapPtr s.live, least ≤ extent.bytes := by
    intro extent member
    obtain ⟨block, live, rfl⟩ := List.mem_map.mp member
    exact large block live
  rw [bytes] at small room searched
  obtain ⟨k, within, vacant⟩ := FirstFit.slot_left positive separate (mirrors.aligned level) sizes
    small room
  cases served : FirstFit.allocate heapSize (extents place.heapPtr s.live) (levelBytes level) with
  | none =>
      have full := FirstFit.firstVacant_none.mp (Option.map_eq_none_iff.mp served)
      exact absurd vacant (full k within)
  | some taken =>
      rw [served] at searched
      obtain ⟨_, after, answer, leaf⟩ := searched
      exact ⟨after, _, answer, leaf.1⟩

/-- Two small blocks cannot touch all four quarters of the heap. -/
theorem served_when_room_quarter :
    ∃ s, exec (step sramPlacement) initial [.malloc 100, .malloc 128] = some s ∧
      ∃ after ptr, malloc sramPlacement.heapPtr s.tree 20000 = some (after, ptr) ∧ ptr ≠ null := by
  obtain ⟨s, executed, sizes, used⟩ :
      ∃ s ∈ exec (step sramPlacement) initial [.malloc 100, .malloc 128],
        (∀ block ∈ s.live, 128 ≤ block.bytes) ∧ (heapStats s.tree).map HeapStats.used = some 256 := by
    decide +kernel
  have begun : Reaches (step sramPlacement) Modest (· = initial) initial := .start rfl
  have reached := exec_reaches _ begun (by decide +kernel) executed
  obtain ⟨stats, answer, served⟩ := served_when_room sramPlacement s reached 20000 128 (by decide)
    sizes (by decide)
  rw [answer] at used
  have few : stats.used = 256 := Option.some.inj used
  have more : 256 < heapSize / blockSizeFor 20000 * 128 := by decide
  exact ⟨s, executed, served (few ▸ more)⟩

/-- The bound is met: 256 bytes in use, and no half of the heap can be had. -/
example :
    ((exec (step sramPlacement) initial
        [.malloc 65536, .malloc 1, .free 0x20000800, .malloc 1]).bind fun s =>
      malloc sramPlacement.heapPtr s.tree 65536).map Prod.snd = some null := by
  decide +kernel

/-! Requests in descending order of their block sizes. -/

def consecutive (start : Nat) : List Nat → List Nat
  | [] => []
  | bytes :: rest => start :: consecutive (start + bytes) rest

theorem packs (heapPtr : Nat) (sizes : List Nat) (held : List FirstFit.Extent) (mark : Nat)
    (packed : FirstFit.Packed held mark)
    (divides : ∀ size ∈ sizes, blockSizeFor size ∣ mark)
    (positive : ∀ size ∈ sizes, 0 < blockSizeFor size)
    (descending : (sizes.map blockSizeFor).Pairwise fun earlier later => later ∣ earlier)
    (fits : mark + (sizes.map blockSizeFor).sum ≤ heapSize) :
    specAnswers heapPtr held (sizes.map .malloc) =
      consecutive (heapPtr + mark) (sizes.map blockSizeFor) := by
  induction sizes generalizing held mark with
  | nil => rfl
  | cons size rest ih =>
      obtain ⟨head, tail⟩ := List.pairwise_cons.mp descending
      simp only [List.map_cons, List.sum_cons] at fits
      obtain ⟨served, further⟩ := packed.allocate (positive size List.mem_cons_self)
        (divides size List.mem_cons_self) (show mark + blockSizeFor size ≤ heapSize by omega)
      have next := ih _ _ further
        (fun other member => Nat.dvd_add (divides other (List.mem_cons_of_mem size member))
          (head _ (List.mem_map_of_mem member)))
        (fun other member => positive other (List.mem_cons_of_mem size member)) tail (by omega)
      simp only [List.map_cons, specAnswers, specCall, served, consecutive, next, Nat.add_assoc]

/-- Requests whose block sizes never grow are laid one behind the other until
the heap is full: all are served, and no byte is lost between them. -/
theorem descending_packed (place : Placement) (sizes : List Nat)
    (modest : ∀ size ∈ sizes, size ≤ heapSize / 2)
    (descending : (sizes.map blockSizeFor).Pairwise fun earlier later => later ≤ earlier)
    (fits : (sizes.map blockSizeFor).sum ≤ heapSize) :
    treeAnswers place.heapPtr heapInit (sizes.map .malloc) =
      some (consecutive place.heapPtr (sizes.map blockSizeFor)) := by
  have power : ∀ size ∈ sizes, ∃ level, blockSizeFor size = levelBytes level := by
    intro size member
    obtain ⟨_, level, _, _, bytes⟩ := modest_level size (modest size member)
    exact ⟨level, bytes⟩
  have dividing : (sizes.map blockSizeFor).Pairwise fun earlier later => later ∣ earlier := by
    refine descending.imp_of_mem fun {earlier later} first second order => ?_
    obtain ⟨a, a_member, rfl⟩ := List.mem_map.mp first
    obtain ⟨b, b_member, rfl⟩ := List.mem_map.mp second
    obtain ⟨upper, a_bytes⟩ := power a a_member
    obtain ⟨lower, b_bytes⟩ := power b b_member
    rw [a_bytes, b_bytes] at order ⊢
    exact Nat.pow_dvd_pow 2 ((Nat.pow_le_pow_iff_right Nat.one_lt_two).mp order)
  have positive : ∀ size ∈ sizes, 0 < blockSizeFor size := by
    intro size member
    obtain ⟨level, bytes⟩ := power size member
    rw [bytes]
    exact Nat.two_pow_pos _
  have spared : ∀ call ∈ sizes.map Call.malloc, Modest initial call := by
    intro call member
    obtain ⟨size, inside, rfl⟩ := List.mem_map.mp member
    exact modest size inside
  rw [show heapInit = initial.tree from rfl,
    answers_agree place _ initial (initial_mirrors place) spared]
  congr 1
  exact packs place.heapPtr sizes [] 0 FirstFit.packed_nil (fun _ _ => Nat.dvd_zero _) positive
    dividing (by omega)

theorem descending_packed_full :
    treeAnswers sramPlacement.heapPtr heapInit ([65536, 40000].map .malloc) =
      some (consecutive sramPlacement.heapPtr ([65536, 40000].map blockSizeFor)) :=
  descending_packed sramPlacement [65536, 40000] (by decide) (by decide) (by decide)

end MulticoreRtos.Heap
