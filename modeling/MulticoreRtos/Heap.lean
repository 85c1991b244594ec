import Mathlib.Logic.Function.Basic
import Mathlib.Data.Nat.Log
import MulticoreRtos.DyadicTree

/-!
The allocator of `os/heap.c`. `heap_tree` is a map from indices to pointer
values; an access at or above `HEAP_TREE_NODE_CNT` is a fault. Index arithmetic
is taken modulo `2 ^ 16` and sizes modulo `2 ^ 32`, as the C types have it. A
call is one function here: `heap_lock` makes it atomic.
-/

namespace MulticoreRtos.Heap

/-- Indices to pointer values; a pointer is its 32-bit address. -/
abbrev Tree := Nat → Nat

def heapAddrLen : Nat := 17
def heapAddrMinLen : Nat := 7
def heapSize : Nat := 1 <<< heapAddrLen
def heapSizeMin : Nat := 1 <<< heapAddrMinLen
def heapAddrMax : Nat := heapSize - 1
def heapTreeLevelCnt : Nat := heapAddrLen - heapAddrMinLen
def heapTreeNodeCnt : Nat := (2 <<< heapTreeLevelCnt) - 1

def null : Nat := 0
def branchNode : Nat := 0xFFFFFFFF

def IsLeaf (value : Nat) : Prop := value ≠ null ∧ value ≠ branchNode

instance (value : Nat) : Decidable (IsLeaf value) := inferInstanceAs (Decidable (_ ∧ _))

/-- The static array `heap`. The linker puts it in SRAM, so no byte of it has
the address `NULL` and it ends below `BRANCH_NODE`. -/
structure Placement where
  heapPtr : Nat
  above_null : null < heapPtr
  below_branch : heapPtr + heapSize ≤ branchNode

def heapInit : Tree := fun _ => null

/-- `__builtin_clz` on a nonzero 32-bit word. -/
def clz (x : Nat) : Nat := 31 - Nat.log 2 x

def nextPow2 (x : Nat) : Nat :=
  if x ≤ 2 then x else (1 <<< 31) >>> (clz (x - 1) - 1)

def blockSizeFor (size : Nat) : Nat :=
  if nextPow2 size < heapSizeMin then heapSizeMin else nextPow2 size

/-- The locals of the search loop of `malloc`, with the tree it rewrites. -/
structure Search where
  tree : Tree
  i : Nat
  blockSize : Nat
  skip : Nat

inductive Move where
  | again (search : Search)
  | stop (tree : Tree) (result : Nat)
  | fault

def traverseUp (i : Nat) : Nat := (i - 1) / 2

/-- The three places of the loop that climb behind an `i == 0` test. -/
def climb (s : Search) (tree : Tree) : Move :=
  if s.i = 0 then .stop tree null
  else .again ⟨tree, traverseUp s.i, (s.blockSize <<< 1) % 2 ^ 32, s.i⟩

def mallocStep (heapPtr size : Nat) (s : Search) : Move :=
  if heapTreeNodeCnt ≤ s.i then .fault
  else if s.blockSize = size then
    if s.tree s.i ≠ null then
      -- this climb has no `i == 0` test: at the root it stays there with a doubled block size
      .again ⟨s.tree, traverseUp s.i, (s.blockSize <<< 1) % 2 ^ 32, s.i⟩
    else
      let offset := ((s.i + 1) * s.blockSize % 2 ^ 32) &&& heapAddrMax
      .stop (Function.update s.tree s.i (heapPtr + offset)) (heapPtr + offset)
  else
    let tree := Function.update s.tree s.i branchNode
    let left := (2 * s.i + 1) % 2 ^ 16
    let right := (2 * s.i + 2) % 2 ^ 16
    if right = s.skip then climb s tree
    else if heapTreeNodeCnt ≤ left then .fault
    else if IsLeaf (tree left) ∨ left = s.skip then
      if heapTreeNodeCnt ≤ right then .fault
      else if IsLeaf (tree right) then climb s tree
      else .again ⟨tree, right, s.blockSize >>> 1, s.skip⟩
    else .again ⟨tree, left, s.blockSize >>> 1, s.skip⟩

/-- `none` is a fault or a search that outlasts `fuel`. -/
def mallocLoop (heapPtr size : Nat) : Nat → Search → Option (Tree × Nat)
  | 0, _ => none
  | fuel + 1, s =>
      match mallocStep heapPtr size s with
      | .again next => mallocLoop heapPtr size fuel next
      | .stop tree result => some (tree, result)
      | .fault => none

def searchFuel : Nat := 4 * heapTreeNodeCnt

def malloc (heapPtr : Nat) (tree : Tree) (size : Nat) : Option (Tree × Nat) :=
  if heapSize < size then some (tree, null)
  else mallocLoop heapPtr (blockSizeFor size) searchFuel ⟨tree, 0, heapSize, 0⟩

theorem malloc_bounded {heapPtr size ptr : Nat} {tree after : Tree}
    (answer : malloc heapPtr tree size = some (after, ptr)) (found : ptr ≠ null) :
    size ≤ heapSize := by
  by_contra large
  rw [malloc, if_pos (Nat.lt_of_not_le large)] at answer
  exact found (Prod.mk.inj (Option.some.inj answer)).2.symm

structure Probe where
  i : Nat
  skip : Nat

/-- One pass of the loop of `find_ptr`: `inl` is the next pass, `inr` the answer. -/
def findStep (tree : Tree) (ptr : Nat) (s : Probe) : Option (Probe ⊕ Nat) :=
  if heapTreeNodeCnt ≤ s.i then none
  else if tree s.i = ptr then some (.inr s.i)
  else
    let left := (2 * s.i + 1) % 2 ^ 16
    let right := (2 * s.i + 2) % 2 ^ 16
    let back : Probe ⊕ Nat := if s.i = 0 then .inr 0 else .inl ⟨traverseUp s.i, s.i⟩
    if right = s.skip then some back
    else if heapTreeNodeCnt ≤ left ∨ tree left = null ∨ left = s.skip then
      if heapTreeNodeCnt < right then some back
      else if heapTreeNodeCnt ≤ right then none
      else if tree right = null then some back
      else some (.inl ⟨right, s.skip⟩)
    else some (.inl ⟨left, s.skip⟩)

def findLoop (tree : Tree) (ptr : Nat) : Nat → Probe → Option Nat
  | 0, _ => none
  | fuel + 1, s =>
      match findStep tree ptr s with
      | some (.inl next) => findLoop tree ptr fuel next
      | some (.inr i) => some i
      | none => none

def findPtr (tree : Tree) (ptr : Nat) : Option Nat := findLoop tree ptr searchFuel ⟨0, 0⟩

/-- "free all available parent nodes": `i` falls in every pass, so `i` passes
are enough and the fuel `i` never runs out before the loop does. -/
def freeParents : Nat → Tree → Nat → Tree
  | 0, tree, _ => tree
  | fuel + 1, tree, i =>
      if i = 0 then tree
      else if tree (2 * traverseUp i + 1) ≠ null then tree
      else if tree (2 * traverseUp i + 2) ≠ null then tree
      else freeParents fuel (Function.update tree (traverseUp i) null) (traverseUp i)

def free (tree : Tree) (ptr : Nat) : Option (Tree × Nat) :=
  if tree 0 = null then some (tree, 1)
  else
    match findPtr tree ptr with
    | none => none
    | some i =>
        if i = 0 then some (tree, 1)
        else some (freeParents i (Function.update tree i null) i, 0)

end MulticoreRtos.Heap
