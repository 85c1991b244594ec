import MulticoreRtos.HeapRefinement

/-!
The bytes behind the pointers. `calloc` clears what it returns; a thread stores
only into blocks it was given and has not freed. Against this flat memory stand
objects with contents of their own, and every object reads back from memory what
its owner last put into it.
-/

namespace MulticoreRtos.Heap

open DyadicTree Transition

abbrev Byte := BitVec 8

abbrev Memory := Nat → Byte

def memset (memory : Memory) (ptr : Nat) (value : Byte) : Nat → Memory
  | 0 => memory
  | count + 1 => Function.update (memset memory ptr value count) (ptr + count) value

def calloc (heapPtr : Nat) (memory : Memory) (tree : Tree) (size : Nat) :
    Option (Memory × Tree × Nat) :=
  (malloc heapPtr tree size).map fun (after, ptr) =>
    if ptr = null then (memory, after, null) else (memset memory ptr 0 size, after, ptr)

/-- A block in use with what its owner knows of its bytes, by offset. -/
structure Object where
  block : Block
  contents : Nat → Option Byte

structure Heaped where
  tree : Tree
  memory : Memory
  objects : List Object

def Heaped.state (h : Heaped) : State := ⟨h.tree, h.objects.map Object.block⟩

inductive Use where
  | malloc (size : Nat)
  | calloc (size : Nat)
  | free (ptr : Nat)
  | store (ptr offset : Nat) (value : Byte)

def Object.store (ptr offset : Nat) (value : Byte) (object : Object) : Object :=
  if object.block.ptr = ptr then
    ⟨object.block, Function.update object.contents offset (some value)⟩
  else object

/-- A store is a step only inside a block in use. -/
def use (place : Placement) (h : Heaped) : Use → Option Heaped
  | .malloc size =>
      (malloc place.heapPtr h.tree size).map fun (tree, ptr) =>
        ⟨tree, h.memory,
          if ptr = null then h.objects
          else ⟨⟨ptr, blockSizeFor size⟩, fun _ => none⟩ :: h.objects⟩
  | .calloc size =>
      (calloc place.heapPtr h.memory h.tree size).map fun (memory, tree, ptr) =>
        ⟨tree, memory,
          if ptr = null then h.objects
          else ⟨⟨ptr, blockSizeFor size⟩, fun offset => if offset < size then some 0 else none⟩ ::
            h.objects⟩
  | .free ptr =>
      (free h.tree ptr).map fun (tree, _) =>
        ⟨tree, h.memory, h.objects.filter fun object => object.block.ptr ≠ ptr⟩
  | .store ptr offset value =>
      if ∃ object ∈ h.objects, object.block.ptr = ptr ∧ offset < object.block.bytes then
        some ⟨h.tree, Function.update h.memory (ptr + offset) value,
          h.objects.map (Object.store ptr offset value)⟩
      else none

/-- Requests are spared as in a run of `malloc` and `free` alone. -/
def Uses (h : Heaped) : Use → Prop
  | .malloc size => Spared h.state (.malloc size)
  | .calloc size => Spared h.state (.malloc size)
  | _ => True

instance (h : Heaped) (action : Use) : Decidable (Uses h action) :=
  match action with
  | .malloc size => inferInstanceAs (Decidable (Spared h.state (.malloc size)))
  | .calloc size => inferInstanceAs (Decidable (Spared h.state (.malloc size)))
  | .free _ => inferInstanceAs (Decidable True)
  | .store _ _ _ => inferInstanceAs (Decidable True)

def Untouched (h : Heaped) : Prop := h.tree = heapInit ∧ h.objects = []

theorem memset_at (memory : Memory) (ptr : Nat) (value : Byte) (count a : Nat) :
    memset memory ptr value count a = if ptr ≤ a ∧ a < ptr + count then value else memory a := by
  induction count with
  | zero =>
      rw [memset, if_neg (by omega)]
  | succ count ih =>
      rw [memset, Function.update_apply, ih]
      by_cases last : a = ptr + count
      · rw [if_pos last, if_pos (by omega)]
      · rw [if_neg last]
        by_cases inside : ptr ≤ a ∧ a < ptr + count
        · rw [if_pos inside, if_pos (by omega)]
        · rw [if_neg inside, if_neg (by omega)]

theorem size_le_block (size : Nat) (fits : size ≤ heapSize) : size ≤ blockSizeFor size := by
  rw [blockSizeFor_max]
  by_cases few : size ≤ 2
  · have minimum : 2 ≤ heapSizeMin := by decide
    exact (few.trans minimum).trans (le_max_right _ _)
  · rw [nextPow2_power size (by omega) fits]
    have less := Nat.lt_pow_succ_log_self Nat.one_lt_two (size - 1)
    exact le_trans (by omega) (le_max_left _ _)

/-- The blocks in use are allocated, inside the heap and apart, and each reads
back what its owner put there. -/
structure Kept (place : Placement) (h : Heaped) : Prop where
  tracked : Tracked place h.state
  apart : h.objects.Pairwise fun a b => Apart a.block b.block
  readable : ∀ object ∈ h.objects, ∀ offset < object.block.bytes, ∀ value,
    object.contents offset = some value → h.memory (object.block.ptr + offset) = value

theorem Kept.inside {place : Placement} {h : Heaped} (kept : Kept place h) {object : Object}
    (member : object ∈ h.objects) :
    place.heapPtr ≤ object.block.ptr ∧
      object.block.ptr + object.block.bytes ≤ place.heapPtr + heapSize := by
  obtain ⟨i, leaf, same⟩ := kept.tracked.live object.block (List.mem_map_of_mem member)
  obtain ⟨low, high, _⟩ := nodeBlock_inside place i (kept.tracked.wf.shaped.node_inside i leaf.1)
  rw [same]
  exact ⟨low, high⟩

theorem Kept.apart_of_ne {place : Placement} {h : Heaped} (kept : Kept place h) {a b : Object}
    (a_in : a ∈ h.objects) (b_in : b ∈ h.objects) (other : a.block.ptr ≠ b.block.ptr) :
    Apart a.block b.block := by
  have symmetric : Std.Symm fun a b : Object => Apart a.block b.block := ⟨fun _ _ => Or.symm⟩
  exact kept.apart.forall a_in b_in fun same => other (congrArg (·.block.ptr) same)

section Steps
variable {place : Placement} {h : Heaped}

theorem Kept.grow (kept : Kept place h) {tree : Tree} {memory : Memory} {block : Block}
    {contents : Nat → Option Byte}
    (tracked : Tracked place ⟨tree, block :: h.objects.map Object.block⟩)
    (apart : ∀ other ∈ h.objects.map Object.block, Apart block other)
    (others : ∀ a, (a < block.ptr ∨ block.ptr + block.bytes ≤ a) → memory a = h.memory a)
    (own : ∀ offset < block.bytes, ∀ value, contents offset = some value →
      memory (block.ptr + offset) = value) :
    Kept place ⟨tree, memory, ⟨block, contents⟩ :: h.objects⟩ where
  tracked := tracked
  apart := List.pairwise_cons.mpr
    ⟨fun other member => apart _ (List.mem_map_of_mem member), kept.apart⟩
  readable := by
    intro object member offset within value known
    rcases List.mem_cons.mp member with rfl | old
    · exact own offset within value known
    · have separate := apart _ (List.mem_map_of_mem old)
      unfold Apart at separate
      rw [← kept.readable object old offset within value known]
      exact others _ (by omega)

theorem use_malloc (kept : Kept place h) (size : Nat) (spared : Spared h.state (.malloc size))
    {after : Heaped} (stepped : use place h (.malloc size) = some after) : Kept place after := by
  rcases malloc_serves kept.tracked size spared with failed | ⟨tree, j, answer, inside, bytes, grown, apart⟩
  · have same : malloc place.heapPtr h.tree size = some (h.tree, null) := failed
    simp only [use, same, Option.map_some, if_true, Option.some.injEq] at stepped
    rw [← stepped]
    exact kept
  · have found := (nodeAddr_leaf place j inside).1
    have served : malloc place.heapPtr h.tree size = some (tree, nodeAddr place.heapPtr j) := answer
    simp only [use, served, Option.map_some, if_neg found, Option.some.injEq, bytes] at stepped
    rw [← stepped]
    exact kept.grow grown apart (fun _ _ => rfl) (by simp)

theorem use_calloc (kept : Kept place h) (size : Nat) (spared : Spared h.state (.malloc size))
    {after : Heaped} (stepped : use place h (.calloc size) = some after) : Kept place after := by
  rcases malloc_serves kept.tracked size spared with failed | ⟨tree, j, answer, inside, bytes, grown, apart⟩
  · have same : malloc place.heapPtr h.tree size = some (h.tree, null) := failed
    simp only [use, calloc, same, Option.map_some, if_true, Option.some.injEq] at stepped
    rw [← stepped]
    exact kept
  · have found := (nodeAddr_leaf place j inside).1
    have served : malloc place.heapPtr h.tree size = some (tree, nodeAddr place.heapPtr j) := answer
    have covers : size ≤ blockBytes heapAddrLen j := by
      rw [← bytes]
      exact size_le_block size (malloc_bounded served found)
    simp only [use, calloc, served, Option.map_some, if_neg found, Option.some.injEq, bytes] at stepped
    rw [← stepped]
    apply kept.grow grown apart
    · -- only the first `size` bytes of the new block are written
      intro a outside
      simp only [nodeBlock] at outside
      rw [memset_at, if_neg (by omega)]
    · intro offset _ value known
      rw [memset_at]
      by_cases cleared : offset < size
      · rw [if_pos cleared] at known
        rw [if_pos (by simp only [nodeBlock]; omega)]
        exact Option.some.inj known
      · rw [if_neg cleared] at known
        cases known

theorem use_free (kept : Kept place h) (ptr : Nat) {after : Heaped}
    (stepped : use place h (.free ptr) = some after) : Kept place after := by
  obtain ⟨tree, answer, freed, _⟩ := free_spec kept.tracked.wf ptr
  have same : free h.tree ptr = some (tree, answer) := freed
  simp only [use, same, Option.map_some, Option.some.injEq] at stepped
  rw [← stepped]
  have blocks : (h.objects.filter fun object => object.block.ptr ≠ ptr).map Object.block =
      (h.objects.map Object.block).filter fun block => block.ptr ≠ ptr := by
    rw [List.filter_map]
    rfl
  have freed_step : step place h.state (.free ptr) =
      some ⟨tree, (h.objects.map Object.block).filter fun block => block.ptr ≠ ptr⟩ := by
    simp only [step, freed, Option.map_some]
    rfl
  refine ⟨?_, kept.apart.filter _, fun object member => ?_⟩
  · simp only [Heaped.state, blocks]
    exact tracked_step place h.state (.free ptr) _ kept.tracked trivial freed_step
  · exact kept.readable object (List.mem_filter.mp member).1

theorem store_block (ptr offset : Nat) (value : Byte) (object : Object) :
    (object.store ptr offset value).block = object.block := by
  unfold Object.store
  split <;> rfl

theorem store_readable (kept : Kept place h) {owner : Object} (owner_member : owner ∈ h.objects)
    {offset : Nat} (inside : offset < owner.block.bytes) (value : Byte) {object : Object}
    (member : object ∈ h.objects) {k : Nat} (within : k < object.block.bytes) {known : Byte}
    (holds : (object.store owner.block.ptr offset value).contents k = some known) :
    Function.update h.memory (owner.block.ptr + offset) value (object.block.ptr + k) = known := by
  by_cases same : object.block.ptr = owner.block.ptr
  · simp only [Object.store, if_pos same] at holds
    by_cases here : k = offset
    · rw [here, Function.update_self] at holds
      rw [here, same, Function.update_self]
      exact Option.some.inj holds
    · rw [Function.update_of_ne here] at holds
      rw [Function.update_of_ne (by omega)]
      exact kept.readable object member k within known holds
  · simp only [Object.store, if_neg same] at holds
    have apart := kept.apart_of_ne member owner_member same
    unfold Apart at apart
    rw [Function.update_of_ne (by omega)]
    exact kept.readable object member k within known holds

theorem use_store (kept : Kept place h) (ptr offset : Nat) (value : Byte) {after : Heaped}
    (stepped : use place h (.store ptr offset value) = some after) : Kept place after := by
  by_cases owned : ∃ object ∈ h.objects, object.block.ptr = ptr ∧ offset < object.block.bytes
  · simp only [use, if_pos owned, Option.some.injEq] at stepped
    rw [← stepped]
    have blocks : (h.objects.map (Object.store ptr offset value)).map Object.block =
        h.objects.map Object.block := by
      rw [List.map_map]
      exact List.map_congr_left fun object _ => store_block ptr offset value object
    refine ⟨?_, ?_, ?_⟩
    · simp only [Heaped.state, blocks]
      exact kept.tracked
    · refine List.pairwise_map.mpr (kept.apart.imp fun {a b} apart => ?_)
      rw [store_block, store_block]
      exact apart
    · intro object member k within known holds
      obtain ⟨old, old_member, rfl⟩ := List.mem_map.mp member
      obtain ⟨owner, owner_member, rfl, inside⟩ := owned
      rw [store_block] at within ⊢
      exact store_readable kept owner_member inside value old_member within holds
  · simp only [use, if_neg owned, reduceCtorEq] at stepped

theorem use_outside (kept : Kept place h) {action : Use} (allowed : Uses h action) {after : Heaped}
    (stepped : use place h action = some after) {a : Nat}
    (outside : a < place.heapPtr ∨ place.heapPtr + heapSize ≤ a) : after.memory a = h.memory a := by
  cases action with
  | malloc size =>
      obtain ⟨_, _, rfl⟩ := Option.map_eq_some_iff.mp stepped
      rfl
  | calloc size =>
      rcases malloc_serves kept.tracked size allowed with failed | ⟨tree, j, answer, inside, bytes, _, _⟩
      · have same : malloc place.heapPtr h.tree size = some (h.tree, null) := failed
        simp only [use, calloc, same, Option.map_some, if_true, Option.some.injEq] at stepped
        rw [← stepped]
      · have found := (nodeAddr_leaf place j inside).1
        have served : malloc place.heapPtr h.tree size = some (tree, nodeAddr place.heapPtr j) := answer
        have covers := size_le_block size (malloc_bounded served found)
        obtain ⟨low, high, _⟩ := nodeBlock_inside place j inside
        simp only [use, calloc, served, Option.map_some, if_neg found, Option.some.injEq] at stepped
        rw [← stepped]
        exact (memset_at _ _ _ _ _).trans (if_neg (by omega))
  | free ptr =>
      obtain ⟨_, _, rfl⟩ := Option.map_eq_some_iff.mp stepped
      rfl
  | store ptr offset value =>
      by_cases owned : ∃ object ∈ h.objects, object.block.ptr = ptr ∧ offset < object.block.bytes
      · simp only [use, if_pos owned, Option.some.injEq] at stepped
        rw [← stepped]
        obtain ⟨owner, member, rfl, inside⟩ := owned
        have bounds := kept.inside member
        exact Function.update_of_ne (by omega) _ _
      · simp only [use, if_neg owned, reduceCtorEq] at stepped

end Steps

theorem kept_step (place : Placement) (h : Heaped) (action : Use) (after : Heaped)
    (kept : Kept place h) (allowed : Uses h action) (stepped : use place h action = some after) :
    Kept place after := by
  cases action with
  | malloc size => exact use_malloc kept size allowed stepped
  | calloc size => exact use_calloc kept size allowed stepped
  | free ptr => exact use_free kept ptr stepped
  | store ptr offset value => exact use_store kept ptr offset value stepped

theorem untouched_kept (place : Placement) (h : Heaped) (begun : Untouched h) : Kept place h := by
  obtain ⟨tree, memory, objects⟩ := h
  obtain ⟨rfl, rfl⟩ := begun
  exact ⟨⟨heapInit_wellFormed place, by simp [Heaped.state]⟩, List.Pairwise.nil, by simp⟩

/-- Along every run of allocations and stores, whoever makes them, a block reads
back what was last put into it: zero after `calloc`, else what its owner stored.
Bytes outside the array `heap` are never written. -/
theorem contents_along_runs (place : Placement) (before h : Heaped) (begun : Untouched before)
    (reached : Reaches (use place) Uses (· = before) h) :
    (∀ object ∈ h.objects, ∀ offset < object.block.bytes, ∀ value,
      object.contents offset = some value → h.memory (object.block.ptr + offset) = value) ∧
    ∀ a, (a < place.heapPtr ∨ place.heapPtr + heapSize ≤ a) → h.memory a = before.memory a := by
  have both := reached.invariant
    (fun h => Kept place h ∧
      ∀ a, (a < place.heapPtr ∨ place.heapPtr + heapSize ≤ a) → h.memory a = before.memory a)
    (by rintro _ rfl; exact ⟨untouched_kept place _ begun, fun _ _ => rfl⟩)
    fun earlier action later ⟨kept, outside⟩ allowed stepped =>
      ⟨kept_step place earlier action later kept allowed stepped, fun a beyond =>
        (use_outside kept allowed stepped beyond).trans (outside a beyond)⟩
  exact ⟨both.1.readable, both.2⟩

/-- Every byte of memory holds 7 before the run. -/
theorem contents_along_runs_cleared :
    ∃ h, exec (use sramPlacement) ⟨heapInit, fun _ => 7, []⟩
        [.malloc 200, .calloc 130, .store 0x20000800 5 9, .store 0x20000900 0 4] = some h ∧
      (∀ object ∈ h.objects, ∀ offset < object.block.bytes, ∀ value,
        object.contents offset = some value → h.memory (object.block.ptr + offset) = value) ∧
      h.memory 0x20000000 = 7 := by
  obtain ⟨h, executed⟩ := Option.isSome_iff_exists.mp
    (show (exec (use sramPlacement) ⟨heapInit, fun _ => 7, []⟩
      [.malloc 200, .calloc 130, .store 0x20000800 5 9, .store 0x20000900 0 4]).isSome = true by
      decide +kernel)
  have begun : Reaches (use sramPlacement) Uses (· = ⟨heapInit, fun _ => 7, []⟩)
      ⟨heapInit, fun _ => 7, []⟩ := .start rfl
  have reached := exec_reaches _ begun (by decide +kernel) executed
  obtain ⟨readable, outside⟩ := contents_along_runs sramPlacement _ h ⟨rfl, rfl⟩ reached
  exact ⟨h, executed, readable, outside 0x20000000 (Or.inl (by decide))⟩

end MulticoreRtos.Heap
