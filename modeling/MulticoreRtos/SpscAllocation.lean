import MulticoreRtos.InitialFrame
import MulticoreRtos.SpscFifo

/-!
The blocks of `fifo32_init` and `fifo8_init`. The byte count is computed modulo
2^32 and rounded by `malloc`, while the indices run modulo the element count that
was asked for.
-/

namespace MulticoreRtos.SpscAllocation

open SpscFifo InitialFrame
open Heap (null heapSize blockSizeFor)

variable {Value : Type}

def sizeofRing : Nat := 12

def byteCount (size elementBytes : Nat) : Nat :=
  (sizeofRing + size * elementBytes % 2 ^ 32) % 2 ^ 32

/-- `memory` is what the block held before. The answer is the address of the FIFO
with its fields, or nothing if `malloc` returns `NULL`. -/
def ringInit (heapPtr : Nat) (tree : Heap.Tree) (memory : Nat → Value) (size elementBytes : Nat) :
    Option (Heap.Tree × Option (Nat × SpscFifo.Ring Value)) :=
  (Heap.malloc heapPtr tree (byteCount size elementBytes)).map fun (tree, ptr) =>
    if ptr = null then (tree, none) else (tree, some (ptr, ⟨0, 0, size, memory⟩))

def fifo32Init (heapPtr : Nat) (tree : Heap.Tree) (memory : Nat → BitVec 32) (size : Nat) :
    Option (Heap.Tree × Option (Nat × Fifo32)) :=
  ringInit heapPtr tree memory size 4

def fifo8Init (heapPtr : Nat) (tree : Heap.Tree) (memory : Nat → BitVec 8) (size : Nat) :
    Option (Heap.Tree × Option (Nat × Fifo8)) :=
  ringInit heapPtr tree memory size 1

inductive Call (Value : Type) where
  | put (value : Value)
  | get (buffer : Value)

/-- A call with the indices of `data` that it accesses; `none` is a get that
waits. -/
def perform (ring : SpscFifo.Ring Value) : Call Value → Option (SpscFifo.Ring Value × List Nat)
  | .put value =>
      (putWith ringParts ring value).map fun (after, refused) =>
        (after, if refused then [] else [ring.tail])
  | .get buffer => (waitingGet ring buffer).map fun (after, _) => (after, [ring.head])

def performAll (ring : SpscFifo.Ring Value) : List (Call Value) → Option (List Nat)
  | [] => some []
  | call :: rest => do
      let (after, accesses) ← perform ring call
      let later ← performAll after rest
      some (accesses ++ later)

def elementAddr (ptr elementBytes index : Nat) : Nat :=
  (ptr + sizeofRing + index * elementBytes) % 2 ^ 32

def Inside (block : Heap.Block) (elementBytes index : Nat) : Prop :=
  block.ptr ≤ elementAddr block.ptr elementBytes index ∧
    elementAddr block.ptr elementBytes index + elementBytes ≤ block.ptr + block.bytes

def Covers (block : Heap.Block) (elementBytes : Nat) (ring : SpscFifo.Ring Value) : Prop :=
  ∀ calls trace, performAll ring calls = some trace →
    ∀ index ∈ trace, Inside block elementBytes index

structure Indexed (ring : SpscFifo.Ring Value) : Prop where
  head : ring.head < ring.size
  tail : ring.tail < ring.size
  word : ring.size < 2 ^ 32

variable {ring after : SpscFifo.Ring Value}

theorem perform_indexed {accesses : List Nat} (indexed : Indexed ring) (call : Call Value)
    (performed : perform ring call = some (after, accesses)) :
    after.size = ring.size ∧ Indexed after ∧ ∀ index ∈ accesses, index < ring.size := by
  obtain ⟨head, tail, word⟩ := indexed
  have next_tail := advance_inside ring.tail ring.size tail word
  have next_head := advance_inside ring.head ring.size head word
  have inside (index : Nat) : (index + 1) % ring.size < ring.size :=
    Nat.mod_lt _ (Nat.zero_lt_of_lt head)
  cases call with
  | put value =>
      by_cases full : (ring.tail + 1) % ring.size = ring.head
      · simp [perform, putWith, ringParts, next_tail, full] at performed
        obtain ⟨rfl, rfl⟩ := performed
        exact ⟨rfl, ⟨head, tail, word⟩, by simp⟩
      · simp [perform, putWith, ringParts, next_tail, full] at performed
        obtain ⟨rfl, rfl⟩ := performed
        exact ⟨rfl, ⟨head, inside _, word⟩, by simpa using tail⟩
  | get buffer =>
      by_cases empty : ring.head = ring.tail
      · simp [perform, waitingGet, empty] at performed
      · simp [perform, waitingGet, getWith, ringParts, next_head, empty] at performed
        obtain ⟨rfl, rfl⟩ := performed
        exact ⟨rfl, ⟨inside _, tail, word⟩, by simpa using head⟩

theorem performAll_indexed (calls : List (Call Value)) :
    ∀ {ring : SpscFifo.Ring Value} {trace : List Nat}, Indexed ring →
      performAll ring calls = some trace → ∀ index ∈ trace, index < ring.size := by
  induction calls with
  | nil =>
      intro ring trace _ performed
      obtain rfl := Option.some.inj performed
      simp
  | cons call rest ih =>
      intro ring trace indexed performed index member
      simp only [performAll, Option.bind_eq_bind, Option.bind_eq_some_iff, Option.some.injEq,
        Prod.exists] at performed
      obtain ⟨after, accesses, once, later, others, rfl⟩ := performed
      obtain ⟨same, indexed', here⟩ := perform_indexed indexed call once
      rcases List.mem_append.mp member with now | then_on
      · exact here index now
      · exact same ▸ ih indexed' others index then_on

theorem puts_in_a_row (value : Value) (k : Nat) :
    ∀ {ring : SpscFifo.Ring Value}, ring.head = 0 → ring.tail + k < ring.size →
      ring.size < 2 ^ 32 →
      performAll ring (List.replicate k (.put value)) = some (List.range' ring.tail k) := by
  induction k with
  | zero => exact fun _ _ _ => rfl
  | succ k ih =>
      intro ring head room word
      have next : MpmcFifo.advance ring.tail ring.size = some (ring.tail + 1) := by
        rw [advance_inside _ _ (by omega) word, Nat.mod_eq_of_lt (by omega)]
      let stored : SpscFifo.Ring Value :=
        { ring with data := Function.update ring.data ring.tail value, tail := ring.tail + 1 }
      have once : perform ring (.put value) = some (stored, [ring.tail]) := by
        simp [perform, putWith, ringParts, next, head, stored]
      have later := @ih stored head (by simp only [stored]; omega) word
      rw [List.replicate_succ, performAll, once, Option.bind_eq_bind, Option.bind_some]
      simp only [later, Option.bind_eq_bind, Option.bind_some, stored]
      rfl

theorem ringInit_some {heapPtr size elementBytes ptr : Nat} {tree marked : Heap.Tree}
    {memory : Nat → Value} (made : ringInit heapPtr tree memory size elementBytes =
      some (marked, some (ptr, ring))) :
    Heap.malloc heapPtr tree (byteCount size elementBytes) = some (marked, ptr) ∧ ptr ≠ null ∧
      ring = ⟨0, 0, size, memory⟩ := by
  simp only [ringInit, Option.map_eq_some_iff] at made
  obtain ⟨⟨tree', ptr'⟩, allocated, answer⟩ := made
  by_cases failed : ptr' = null
  · simp [failed] at answer
  · simp only [failed, if_false, Prod.mk.injEq, Option.some.injEq] at answer
    obtain ⟨rfl, rfl, rfl⟩ := answer
    exact ⟨allocated, failed, rfl⟩

section Block

variable {place : Heap.Placement} {size elementBytes ptr : Nat} {tree marked : Heap.Tree}
  {memory : Nat → Value}

theorem covered (some_slots : 1 ≤ size) (word : size < 2 ^ 32)
    (made : ringInit place.heapPtr tree memory size elementBytes = some (marked, some (ptr, ring)))
    (no_wrap : sizeofRing + size * elementBytes < 2 ^ 32) :
    Covers ⟨ptr, blockSizeFor (byteCount size elementBytes)⟩ elementBytes ring := by
  obtain ⟨allocated, found, rfl⟩ := ringInit_some made
  obtain ⟨above, below, _, fits, _⟩ := malloc_block allocated found
  have last := place.below_branch
  have top : Heap.branchNode < 2 ^ 32 := by norm_num [Heap.branchNode]
  have bytes : byteCount size elementBytes = sizeofRing + size * elementBytes := by
    rw [byteCount, Nat.mod_eq_of_lt (show size * elementBytes < 2 ^ 32 by omega),
      Nat.mod_eq_of_lt no_wrap]
  rw [bytes] at fits below ⊢
  have indexed : Indexed (⟨0, 0, size, memory⟩ : SpscFifo.Ring Value) :=
    ⟨some_slots, some_slots, word⟩
  intro calls trace performed index member
  have low := performAll_indexed calls indexed performed index member
  have room := Nat.mul_le_mul_right elementBytes (Nat.succ_le_of_lt low)
  rw [Nat.succ_mul] at room
  simp only at room
  have addr : elementAddr ptr elementBytes index = ptr + sizeofRing + index * elementBytes :=
    Nat.mod_eq_of_lt (by omega)
  rw [Inside, addr]
  simp only
  omega

/-- After a wrap the puts run out of the block before the FIFO is full. -/
theorem uncovered (width : elementBytes = 1 ∨ elementBytes = 4) (word : size < 2 ^ 32)
    (made : ringInit place.heapPtr tree memory size elementBytes = some (marked, some (ptr, ring)))
    (wraps : 2 ^ 32 ≤ sizeofRing + size * elementBytes) (value : Value) :
    ¬ Covers ⟨ptr, blockSizeFor (byteCount size elementBytes)⟩ elementBytes ring := by
  obtain ⟨allocated, found, rfl⟩ := ringInit_some made
  obtain ⟨above, below, _, _, least⟩ := malloc_block allocated found
  have words := block_words (Heap.malloc_bounded allocated found)
  have last := place.below_branch
  have top : Heap.branchNode < 2 ^ 32 := by norm_num [Heap.branchNode]
  have small : heapSize = 131072 := rfl
  have header : sizeofRing = 12 := rfl
  generalize blockSizeFor (byteCount size elementBytes) = bytes at *
  intro covers
  -- the first element behind the block
  have behind : ∃ k, k + 1 < size ∧ sizeofRing + k * elementBytes = bytes := by
    rcases width with rfl | rfl
    · exact ⟨bytes - 12, by omega, by omega⟩
    · obtain ⟨words, rfl⟩ := words
      exact ⟨words - 3, by omega, by omega⟩
  obtain ⟨k, room, stop⟩ := behind
  have performed : performAll (⟨0, 0, size, memory⟩ : SpscFifo.Ring Value)
      (List.replicate (k + 1) (.put value)) = some (List.range' 0 (k + 1)) :=
    puts_in_a_row value (k + 1) rfl (by simpa using room) word
  have inside := covers _ _ performed k (by simp)
  have addr : elementAddr ptr elementBytes k = ptr + bytes := by
    rw [elementAddr, Nat.add_assoc, stop, Nat.mod_eq_of_lt (by omega)]
  rw [Inside, addr] at inside
  simp only at inside
  omega

theorem covers_iff (width : elementBytes = 1 ∨ elementBytes = 4) (some_slots : 1 ≤ size)
    (word : size < 2 ^ 32)
    (made : ringInit place.heapPtr tree memory size elementBytes = some (marked, some (ptr, ring)))
    (value : Value) :
    Covers ⟨ptr, blockSizeFor (byteCount size elementBytes)⟩ elementBytes ring ↔
      sizeofRing + size * elementBytes < 2 ^ 32 := by
  constructor
  · intro covers
    by_contra wraps
    exact uncovered width word made (Nat.not_lt.mp wraps) value covers
  · exact covered some_slots word made

end Block

/-- The block of a FIFO covers all its later accesses exactly when the byte count
of its fields and elements does not reach 2^32. -/
theorem allocation_covers_iff (place : Heap.Placement) (tree : Heap.Tree) (size : Nat)
    (some_slots : 1 ≤ size) (word : size < 2 ^ 32) :
    (∀ memory marked ptr (fifo : Fifo32),
      fifo32Init place.heapPtr tree memory size = some (marked, some (ptr, fifo)) →
        (Covers ⟨ptr, blockSizeFor (byteCount size 4)⟩ 4 fifo ↔ 12 + size * 4 < 2 ^ 32)) ∧
    (∀ memory marked ptr (fifo : Fifo8),
      fifo8Init place.heapPtr tree memory size = some (marked, some (ptr, fifo)) →
        (Covers ⟨ptr, blockSizeFor (byteCount size 1)⟩ 1 fifo ↔ 12 + size * 1 < 2 ^ 32)) :=
  ⟨fun _ _ _ _ made => covers_iff (Or.inr rfl) some_slots word made 0,
    fun _ _ _ _ made => covers_iff (Or.inl rfl) some_slots word made 0⟩

theorem allocation_covers_ten :
    ∃ marked ptr fifo, fifo32Init Heap.sramPlacement.heapPtr Heap.heapInit (fun _ => 0) 10 =
        some (marked, some (ptr, fifo)) ∧
      Covers ⟨ptr, blockSizeFor (byteCount 10 4)⟩ 4 fifo := by
  obtain ⟨⟨marked, found⟩, made, there⟩ :
      ∃ made ∈ fifo32Init Heap.sramPlacement.heapPtr Heap.heapInit (fun _ => 0) 10,
        made.2.isSome := by decide +kernel
  obtain ⟨⟨ptr, fifo⟩, rfl⟩ := Option.isSome_iff_exists.mp there
  exact ⟨marked, ptr, fifo, made,
    ((allocation_covers_iff Heap.sramPlacement Heap.heapInit 10 (by decide) (by decide)).1 _ _ _ _
      made).mpr (by decide)⟩

/-- `fifo32_init(2^30)` asks for 12 bytes. -/
theorem large_fifo_uncovered :
    ∃ marked ptr fifo, fifo32Init Heap.sramPlacement.heapPtr Heap.heapInit (fun _ => 0) (2 ^ 30) =
        some (marked, some (ptr, fifo)) ∧
      ¬ Covers ⟨ptr, blockSizeFor (byteCount (2 ^ 30) 4)⟩ 4 fifo := by
  obtain ⟨⟨marked, found⟩, made, there⟩ :
      ∃ made ∈ fifo32Init Heap.sramPlacement.heapPtr Heap.heapInit (fun _ => 0) (2 ^ 30),
        made.2.isSome := by decide +kernel
  obtain ⟨⟨ptr, fifo⟩, rfl⟩ := Option.isSome_iff_exists.mp there
  exact ⟨marked, ptr, fifo, made, uncovered (Or.inr rfl) (by decide) made (by decide) 0⟩

end MulticoreRtos.SpscAllocation
