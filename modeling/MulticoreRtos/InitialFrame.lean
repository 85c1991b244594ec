import MulticoreRtos.Creation

/-!
The first frame of a thread. `add_thread` writes three words through `stack` and
points the saved SP 64 bytes below the end of the stack. The indices are computed
modulo 2^32 from the size that the caller asked for, and nothing checks it; the
block is that size rounded up by `malloc`.
-/

namespace MulticoreRtos.InitialFrame

open Scheduler Serialized Creation
open Heap (null heapSize blockSizeFor)

/-- `&stack[stack_size - below]` -/
def stackIndex (stack stackSize below : Nat) : Nat :=
  (stack + (stackSize + (2 ^ 32 - below)) % 2 ^ 32) % 2 ^ 32

def psrWord (stack stackSize : Nat) : Nat := stackIndex stack stackSize 4
def pcWord (stack stackSize : Nat) : Nat := stackIndex stack stackSize 8
def markerWord (stack : Nat) : Nat := stack
def initialSp (stack stackSize : Nat) : Nat := stackIndex stack stackSize 64

structure WordInside (block : Heap.Block) (addr : Nat) : Prop where
  above : block.ptr ≤ addr
  below : addr + 4 ≤ block.ptr + block.bytes
  aligned : addr % 4 = 0

/-- What the first switch to the thread relies on. -/
structure FrameFits (block : Heap.Block) (stackSize : Nat) : Prop where
  psr : WordInside block (psrWord block.ptr stackSize)
  pc : WordInside block (pcWord block.ptr stackSize)
  marker : WordInside block (markerWord block.ptr)
  frame : ∀ i < 16, WordInside block (initialSp block.ptr stackSize + 4 * i)
  marker_apart : markerWord block.ptr + 4 ≤ psrWord block.ptr stackSize ∧
    markerWord block.ptr + 4 ≤ pcWord block.ptr stackSize

/-! The block -/

theorem climb_null {search : Heap.Search} {marked tree : Heap.Tree} {ptr : Nat}
    (stopped : Heap.climb search marked = .stop tree ptr) : ptr = null := by
  simp only [Heap.climb] at stopped
  split at stopped
  · exact (Heap.Move.stop.inj stopped).2.symm
  · cases stopped

theorem mallocStep_block {heapPtr size ptr : Nat} {search : Heap.Search} {tree : Heap.Tree}
    (stopped : Heap.mallocStep heapPtr size search = .stop tree ptr) (found : ptr ≠ null) :
    ptr = heapPtr + (((search.i + 1) * size % 2 ^ 32) &&& Heap.heapAddrMax) := by
  simp only [Heap.mallocStep] at stopped
  split at stopped
  · cases stopped
  split at stopped
  · rename_i right_size
    split at stopped
    · cases stopped
    · rw [right_size] at stopped
      exact (Heap.Move.stop.inj stopped).2.symm
  · -- every other exit is a climb from the root
    split at stopped
    · exact absurd (climb_null stopped) found
    split at stopped
    · cases stopped
    split at stopped
    · split at stopped
      · cases stopped
      split at stopped
      · exact absurd (climb_null stopped) found
      · cases stopped
    · cases stopped

theorem mallocLoop_block {heapPtr size ptr : Nat} {tree : Heap.Tree} (fuel : Nat) :
    ∀ {search : Heap.Search}, Heap.mallocLoop heapPtr size fuel search = some (tree, ptr) →
      ptr ≠ null → ∃ i, ptr = heapPtr + (((i + 1) * size % 2 ^ 32) &&& Heap.heapAddrMax) := by
  induction fuel with
  | zero => exact fun ended => nomatch ended
  | succ fuel ih =>
      intro search ended found
      rw [Heap.mallocLoop] at ended
      cases stepped : Heap.mallocStep heapPtr size search with
      | again next =>
          rw [stepped] at ended
          exact ih ended found
      | stop marked result =>
          rw [stepped] at ended
          obtain ⟨rfl, rfl⟩ := Prod.mk.inj (Option.some.inj ended)
          exact ⟨search.i, mallocStep_block stepped found⟩
      | fault =>
          rw [stepped] at ended
          cases ended

theorem offset_inside (i : Nat) {level : Nat} (shallow : level ≤ Heap.heapAddrLen) :
    ∃ k, (i * Heap.levelBytes level % 2 ^ 32) &&& Heap.heapAddrMax = k * Heap.levelBytes level ∧
      (k + 1) * Heap.levelBytes level ≤ heapSize := by
  have split : heapSize = 2 ^ level * Heap.levelBytes level := by
    rw [Heap.levelBytes, ← pow_add, Nat.add_sub_cancel' shallow]
    rfl
  have mask : Heap.heapAddrMax = 2 ^ 17 - 1 := rfl
  have whole : heapSize = 2 ^ 17 := rfl
  refine ⟨i % 2 ^ level, ?_, ?_⟩
  · rw [mask, Nat.and_two_pow_sub_one_eq_mod, Nat.mod_mod_of_dvd _ (by decide), ← whole, split,
      Nat.mul_mod_mul_right]
  · rw [split]
    exact Nat.mul_le_mul_right _ (Nat.mod_lt i (Nat.two_pow_pos level))

theorem request_fits {size : Nat} (fits : size ≤ heapSize) :
    size ≤ blockSizeFor size ∧ 128 ≤ blockSizeFor size := by
  have least : Heap.heapSizeMin = 128 := rfl
  have power : size ≤ Heap.nextPow2 size := by
    by_cases small : size ≤ 2
    · rw [Heap.nextPow2, if_pos small]
    · rw [Heap.nextPow2_power size (by omega) fits]
      have above := Nat.lt_pow_succ_log_self Nat.one_lt_two (size - 1)
      omega
  rw [Heap.blockSizeFor_max, least]
  exact ⟨power.trans (le_max_left _ _), le_max_right _ _⟩

theorem block_words {size : Nat} (fits : size ≤ heapSize) : 4 ∣ blockSizeFor size := by
  obtain ⟨level, shallow, bytes, _⟩ := Heap.blockSizeFor_level size fits
  have lengths : Heap.heapAddrLen = 17 ∧ Heap.heapTreeLevelCnt = 10 := by decide
  have large : 2 ^ 2 ∣ Heap.levelBytes level := pow_dvd_pow 2 (by omega)
  rw [bytes]
  exact large

/-- Whatever the tree is, an answer of `malloc` is a block of the heap that starts
at a multiple of 128 bytes into it and is as large as the request. -/
theorem malloc_block {heapPtr size ptr : Nat} {tree after : Heap.Tree}
    (answer : Heap.malloc heapPtr tree size = some (after, ptr)) (found : ptr ≠ null) :
    heapPtr ≤ ptr ∧ ptr + blockSizeFor size ≤ heapPtr + heapSize ∧ ptr % 4 = heapPtr % 4 ∧
      size ≤ blockSizeFor size ∧ 128 ≤ blockSizeFor size := by
  have fits := Heap.malloc_bounded answer found
  obtain ⟨level, shallow, bytes, _⟩ := Heap.blockSizeFor_level size fits
  rw [Heap.malloc, if_neg (Nat.not_lt.mpr fits)] at answer
  obtain ⟨i, at_offset⟩ := mallocLoop_block _ answer found
  have deep : Heap.heapTreeLevelCnt ≤ Heap.heapAddrLen := by decide
  obtain ⟨k, offset, inside⟩ := offset_inside (i + 1) (shallow.trans deep)
  rw [← bytes] at offset inside
  rw [offset] at at_offset
  have words : 4 ∣ k * blockSizeFor size := Dvd.dvd.mul_left (block_words fits) k
  rw [Nat.add_mul, Nat.one_mul] at inside
  exact ⟨by omega, by omega, by omega, request_fits fits⟩

theorem stackIndex_eq {stack stackSize below bytes : Nat} (inside : below ≤ stackSize)
    (positive : 0 < below) (fits : stackSize ≤ bytes) (top : stack + bytes < 2 ^ 32) :
    stackIndex stack stackSize below = stack + stackSize - below := by
  have index : (stackSize + (2 ^ 32 - below)) % 2 ^ 32 = stackSize - below := by omega
  rw [stackIndex, index]
  omega

theorem stackIndex_inside {stack stackSize below bytes : Nat} (small : below ≤ 64)
    (top : stack + bytes < 2 ^ 32) (large : bytes ≤ heapSize)
    (start : stack ≤ stackIndex stack stackSize below)
    (stop : stackIndex stack stackSize below + 4 ≤ stack + bytes) : below ≤ stackSize := by
  by_contra less
  have whole : heapSize = 131072 := rfl
  have index : (stackSize + (2 ^ 32 - below)) % 2 ^ 32 = stackSize + (2 ^ 32 - below) := by omega
  rw [stackIndex, index] at start stop
  by_cases wraps : stack + stackSize < below
  · rw [Nat.mod_eq_of_lt (by omega)] at stop
    omega
  · have turn : stack + (stackSize + (2 ^ 32 - below)) = stack + stackSize - below + 2 ^ 32 := by omega
    rw [turn, Nat.add_mod_right, Nat.mod_eq_of_lt (by omega)] at start
    omega

/-- The frame fits exactly when the size is at least that of the frame and the
size and the heap are word-aligned. -/
theorem fits_iff {place : Heap.Placement} {stackSize stack : Nat} {tree after : Heap.Tree}
    (answer : Heap.malloc place.heapPtr tree stackSize = some (after, stack)) (found : stack ≠ null)
    (word : stackSize < 2 ^ 32) :
    FrameFits ⟨stack, blockSizeFor stackSize⟩ stackSize ↔
      64 ≤ stackSize ∧ stackSize % 4 = 0 ∧ place.heapPtr % 4 = 0 := by
  obtain ⟨above, below, aligned, fits, least⟩ := malloc_block answer found
  have last : Heap.branchNode < 2 ^ 32 := by norm_num [Heap.branchNode]
  have top : stack + blockSizeFor stackSize < 2 ^ 32 :=
    (below.trans place.below_branch).trans_lt last
  constructor
  · rintro ⟨psr, _, marker, frame, _⟩
    have marker_aligned : stack % 4 = 0 := marker.aligned
    have bytes : blockSizeFor stackSize ≤ heapSize := by omega
    have first := frame 0 (by decide)
    rw [Nat.mul_zero, Nat.add_zero, initialSp] at first
    have room : 64 ≤ stackSize := stackIndex_inside (le_refl 64) top bytes first.above first.below
    have psr_aligned := psr.aligned
    rw [psrWord, stackIndex_eq (by omega) (by decide) fits top] at psr_aligned
    omega
  · rintro ⟨room, even, heap_even⟩
    have place_of {below : Nat} (inside : below ≤ stackSize) (positive : 0 < below) :=
      stackIndex_eq inside positive fits top
    refine ⟨?_, ?_, ?_, ?_, ?_⟩
    · rw [psrWord, place_of (by omega) (by decide)]
      exact ⟨by simp only; omega, by simp only; omega, by omega⟩
    · rw [pcWord, place_of (by omega) (by decide)]
      exact ⟨by simp only; omega, by simp only; omega, by omega⟩
    · exact ⟨le_refl _, by simp only [markerWord]; omega, by simp only [markerWord]; omega⟩
    · intro i low
      rw [initialSp, place_of room (by decide)]
      exact ⟨by simp only; omega, by simp only; omega, by omega⟩
    · rw [psrWord, pcWord, place_of (by omega) (by decide), place_of (by omega) (by decide)]
      simp only [markerWord]
      omega

/-! The call -/

variable {Sem Task : Type} {place : Heap.Placement} {s s' : Station Sem Task} {cpu : Core}

theorem allocate_block {heap after : Heap.State} {size ptr : Nat}
    (taken : allocate place heap size = some (after, ptr)) (found : ptr ≠ null) :
    Heap.malloc place.heapPtr heap.tree size = some (after.tree, ptr) ∧
      ⟨ptr, blockSizeFor size⟩ ∈ after.live := by
  simp only [allocate, Option.bind_eq_bind, Option.bind_eq_some_iff] at taken
  obtain ⟨⟨tree, answer⟩, called, heap', stepped, same⟩ := taken
  obtain ⟨rfl, rfl⟩ := Prod.mk.inj (Option.some.inj same)
  simp only [Heap.step, called, Option.map_some, if_neg found, Option.some.injEq] at stepped
  subst stepped
  exact ⟨called, List.mem_cons_self⟩

theorem created_thread {stackSize priority : Nat}
    (created : Creation.addThread place s cpu stackSize priority = some (s', 0)) :
    ∃ heap newtcb stack, allocate place heap stackSize = some (s'.heap, stack) ∧ stack ≠ null ∧
      s'.kernel = Scheduler.addThread s.kernel newtcb stack stackSize priority := by
  simp only [Creation.addThread, Station.lock, Option.bind_eq_bind, Option.bind_eq_some_iff] at created
  obtain ⟨locked, taken, rest⟩ := created
  split at taken
  case isFalse => cases taken
  case isTrue =>
    obtain rfl := Option.some.inj taken
    split at rest
    · simp at rest
    obtain ⟨⟨heap, newtcb⟩, _, rest⟩ := Option.bind_eq_some_iff.mp rest
    simp only at rest
    split at rest
    · simp at rest
    obtain ⟨⟨last, stack⟩, second, rest⟩ := Option.bind_eq_some_iff.mp rest
    simp only at rest second
    split at rest
    · obtain ⟨_, _, refused⟩ := Option.bind_eq_some_iff.mp rest
      simp at refused
    · rename_i there
      obtain ⟨rfl, _⟩ := Prod.mk.inj (Option.some.inj rest)
      exact ⟨heap, newtcb, stack, second, there, rfl⟩

/-- For every size with which `add_thread` succeeds: the words it writes and the
first frame lie aligned in the block of the stack, with the marker apart, exactly
when the size is a multiple of 4 of at least 64 and the heap is word-aligned. -/
theorem initial_frame_iff {stackSize priority : Nat} (word : stackSize < 2 ^ 32)
    (created : Creation.addThread place s cpu stackSize priority = some (s', 0)) :
    ∃ stack, ⟨stack, blockSizeFor stackSize⟩ ∈ s'.heap.live ∧
      s'.kernel.stack (s'.kernel.threadSchedule priority) = stack ∧
      s'.kernel.sp (s'.kernel.threadSchedule priority) = initialSp stack stackSize ∧
      (FrameFits ⟨stack, blockSizeFor stackSize⟩ stackSize ↔
        64 ≤ stackSize ∧ stackSize % 4 = 0 ∧ place.heapPtr % 4 = 0) := by
  obtain ⟨heap, newtcb, stack, taken, there, kernel⟩ := created_thread created
  obtain ⟨answer, live⟩ := allocate_block taken there
  have first : s'.kernel.threadSchedule priority = newtcb := by
    rw [kernel]
    simp [Scheduler.addThread, enqueueThread]
  refine ⟨stack, live, ?_, ?_, fits_iff answer there word⟩
  · rw [first, kernel]
    simp [Scheduler.addThread, enqueueThread]
  · rw [first, kernel, initialSp, stackIndex, Nat.add_mod_mod, ← Nat.add_assoc]
    simp [Scheduler.addThread, enqueueThread]

theorem initial_frame_kilobyte :
    ∃ s', Creation.addThread Heap.sramPlacement booting .cpu0 1024 1 = some (s', 0) ∧
      ∃ stack, ⟨stack, blockSizeFor 1024⟩ ∈ s'.heap.live ∧
        FrameFits ⟨stack, blockSizeFor 1024⟩ 1024 := by
  have answer : (Creation.addThread Heap.sramPlacement booting .cpu0 1024 1).map Prod.snd = some 0 := by
    decide +kernel
  obtain ⟨⟨s', _⟩, created, rfl⟩ := Option.map_eq_some_iff.mp answer
  obtain ⟨stack, live, _, _, fits⟩ := initial_frame_iff (by decide) created
  exact ⟨s', created, stack, live, fits.mpr (by decide)⟩

/-- A thread of 8 bytes is created, with the marker over its PC. -/
theorem marker_over_pc :
    ∃ s', Creation.addThread Heap.sramPlacement booting .cpu0 8 1 = some (s', 0) ∧
      ¬ FrameFits ⟨s'.kernel.stack (s'.kernel.threadSchedule 1), blockSizeFor 8⟩ 8 := by
  have answer : (Creation.addThread Heap.sramPlacement booting .cpu0 8 1).map Prod.snd = some 0 := by
    decide +kernel
  obtain ⟨⟨s', _⟩, created, rfl⟩ := Option.map_eq_some_iff.mp answer
  refine ⟨s', created, fun fits => ?_⟩
  have apart := fits.marker_apart.2
  rw [pcWord, stackIndex, markerWord] at apart
  exact absurd (apart.trans (Nat.mod_le _ _)) (Nat.not_le.mpr (Nat.lt_add_of_pos_right (by decide)))

end MulticoreRtos.InitialFrame
