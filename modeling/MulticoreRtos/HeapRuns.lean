import MulticoreRtos.HeapFit
import MulticoreRtos.HeapRelease

/-!
Heap safety over whole runs. The climb of `malloc` out of a taken root has no
`i == 0` test, and the pass over the root overwrites whatever the root holds. A
request for more than half of the heap therefore comes back with the whole
heap's address from a child of the root, and any request made while the whole
heap is one block is served from inside that block.
-/

namespace MulticoreRtos.Heap

open DyadicTree Transition

/-- `live` holds the blocks returned and not yet passed to `free`. -/
structure State where
  tree : Tree
  live : List Block

inductive Call where
  | malloc (size : Nat)
  | free (ptr : Nat)

def initial : State := ⟨heapInit, []⟩

def step (place : Placement) (s : State) : Call → Option State
  | .malloc size =>
      (malloc place.heapPtr s.tree size).map fun (tree, ptr) =>
        ⟨tree, if ptr = null then s.live else ⟨ptr, blockSizeFor size⟩ :: s.live⟩
  | .free ptr =>
      (free s.tree ptr).map fun (tree, _) => ⟨tree, s.live.filter fun block => block.ptr ≠ ptr⟩

/-- What a caller of `malloc(size)` relies on in state `s`. -/
def ReturnsSafeBlock (place : Placement) (s : State) (size : Nat) : Prop :=
  ∃ tree ptr, malloc place.heapPtr s.tree size = some (tree, ptr) ∧
    (ptr ≠ null →
      place.heapPtr ≤ ptr ∧
      ptr + max (nextPow2 size) heapSizeMin ≤ place.heapPtr + heapSize ∧
      max (nextPow2 size) heapSizeMin ∣ ptr - place.heapPtr ∧
      ∀ block ∈ s.live, Apart ⟨ptr, max (nextPow2 size) heapSizeMin⟩ block)

/-- No request is served while the whole heap is one live block, and a request
for more than half of it finds the heap empty or both halves in use. -/
def Spared (s : State) : Call → Prop
  | .malloc size => size ≤ heapSize →
      (∀ block ∈ s.live, block.bytes ≠ heapSize) ∧
      (heapSize / 2 < size → s.tree 0 = null ∨ (s.tree 1 ≠ null ∧ s.tree 2 ≠ null))
  | .free _ => True

instance (s : State) (call : Call) : Decidable (Spared s call) :=
  match call with
  | .malloc _ => inferInstanceAs (Decidable (_ → _ ∧ _))
  | .free _ => inferInstanceAs (Decidable True)

structure Tracked (place : Placement) (s : State) : Prop where
  wf : WellFormed place s.tree
  live : ∀ block ∈ s.live, ∃ i, IsLeaf (s.tree i) ∧ block = nodeBlock place.heapPtr i

theorem blockSizeFor_max (size : Nat) : blockSizeFor size = max (nextPow2 size) heapSizeMin := by
  unfold blockSizeFor
  split <;> omega

theorem grown_tracked {place : Placement} {s : State} {j : Nat} {after : Tree}
    (tracked : Tracked place s) (inside : j < heapTreeNodeCnt)
    (off_path : ∀ i, IsLeaf (s.tree i) → nodeBlock place.heapPtr i ∈ s.live → ¬ Ancestor i j)
    (grown : Grown s.tree after j (nodeAddr place.heapPtr j)) :
    Tracked place ⟨after, nodeBlock place.heapPtr j :: s.live⟩ ∧
      ∀ block ∈ s.live, Apart (nodeBlock place.heapPtr j) block := by
  have wf := grown.wellFormed tracked.wf inside
  have new_leaf : IsLeaf (after j) := by
    rw [grown.here]
    exact nodeAddr_leaf place j inside
  have keeps : ∀ block ∈ s.live, ∃ i, IsLeaf (after i) ∧ block = nodeBlock place.heapPtr i ∧ i ≠ j := by
    intro block member
    obtain ⟨i, leaf, same⟩ := tracked.live block member
    obtain ⟨other, kept⟩ := grown.leaf i leaf (off_path i leaf (same ▸ member))
    exact ⟨i, by rwa [kept], same, other⟩
  refine ⟨⟨wf, ?_⟩, ?_⟩
  · intro block member
    rcases List.mem_cons.mp member with rfl | old
    · exact ⟨j, new_leaf, rfl⟩
    · obtain ⟨i, leaf, same, _⟩ := keeps block old
      exact ⟨i, leaf, same⟩
  · intro block member
    obtain ⟨i, leaf, same, other⟩ := keeps block member
    rw [same]
    exact leaves_apart wf j i new_leaf leaf other.symm

theorem live_root {place : Placement} {s : State} (tracked : Tracked place s)
    (root : s.tree 0 ≠ branchNode) (block : Block) (member : block ∈ s.live) :
    IsLeaf (s.tree 0) ∧ block = nodeBlock place.heapPtr 0 := by
  obtain ⟨i, leaf, same⟩ := tracked.live block member
  have top : i = 0 := by
    by_contra inner
    exact leaf.1 (tracked.wf.shaped.below_root_null root i inner)
  exact ⟨top ▸ leaf, top ▸ same⟩

/-- Every outcome of a spared `malloc`: nothing found and nothing changed, or
one new node whose block is apart from the live blocks. -/
def Serves (place : Placement) (s : State) (size : Nat) : Prop :=
  malloc place.heapPtr s.tree size = some (s.tree, null) ∨
  ∃ tree j, malloc place.heapPtr s.tree size = some (tree, nodeAddr place.heapPtr j) ∧
    j < heapTreeNodeCnt ∧ blockSizeFor size = blockBytes heapAddrLen j ∧
    Tracked place ⟨tree, nodeBlock place.heapPtr j :: s.live⟩ ∧
    ∀ block ∈ s.live, Apart (nodeBlock place.heapPtr j) block

theorem serves_open {place : Placement} {s : State} (tracked : Tracked place s)
    (root : ¬ IsLeaf (s.tree 0)) (size target : Nat) (fits : size ≤ heapSize)
    (bytes : blockSizeFor size = levelBytes target) (deep : 1 ≤ target)
    (shallow : target ≤ heapTreeLevelCnt) : Serves place s size := by
  rcases malloc_fits place.heapPtr tracked.wf.shaped root size target fits bytes deep shallow with
    ⟨failed, _⟩ | ⟨j, after, answer, ⟨level, _, open_path⟩, _, grown⟩
  · exact Or.inl failed
  · right
    have inside := node_bound target j level shallow
    obtain ⟨kept, apart⟩ := grown_tracked tracked inside
      (fun i leaf _ above => open_path i above leaf) grown
    refine ⟨after, j, answer, inside, ?_, kept, apart⟩
    rw [bytes, blockBytes_at heapAddrLen target j level, levelBytes]

/-- A root block nobody holds any more is simply overwritten. -/
theorem serves_over_root {place : Placement} {s : State} (tracked : Tracked place s)
    (root : IsLeaf (s.tree 0)) (released : ∀ block ∈ s.live, block.bytes ≠ heapSize)
    (size target : Nat) (fits : size ≤ heapSize) (bytes : blockSizeFor size = levelBytes target)
    (deep : 1 ≤ target) (shallow : target ≤ heapTreeLevelCnt) : Serves place s size := by
  have none_live : s.live = [] := by
    apply List.eq_nil_iff_forall_not_mem.mpr
    intro block member
    have whole := (live_root tracked root.2 block member).2
    exact released block member (by rw [whole]; rfl)
  obtain ⟨after, answer, grown⟩ := malloc_over_root place.heapPtr tracked.wf.shaped root.2 size target
    fits bytes deep shallow
  have level := (first_candidate target).1
  have inside := node_bound target _ level shallow
  have first := nodeAddr_first place.heapPtr target shallow
  obtain ⟨kept, apart⟩ := grown_tracked tracked inside (by simp [none_live]) (by rwa [first])
  refine Or.inr ⟨after, _, by rw [answer, first], inside, ?_, kept, apart⟩
  rw [bytes, blockBytes_at heapAddrLen target _ level, levelBytes]

section WholeHeap
variable {place : Placement} {s : State} {size : Nat}

theorem serves_whole (tracked : Tracked place s) (vacant : s.tree 0 = null)
    (fits : size ≤ heapSize) (bytes : blockSizeFor size = heapSize) : Serves place s size := by
  have root := nodeAddr_root place.heapPtr
  have grown := whole_grown s.tree (nodeAddr place.heapPtr 0) vacant
  obtain ⟨kept, apart⟩ := grown_tracked tracked (by decide)
    (fun _ _ _ above => absurd (ancestor_lt _ 0 above) (Nat.not_lt_zero _)) grown
  refine Or.inr ⟨_, 0, ?_, by decide, bytes, kept, apart⟩
  rw [malloc_whole place.heapPtr size s.tree fits bytes, if_pos vacant, root]

/-- The whole heap is asked for while both halves are in use: the search visits
the root twice and both children, and fails. -/
theorem whole_refused (tracked : Tracked place s) (fits : size ≤ heapSize)
    (bytes : blockSizeFor size = heapSize) (first : s.tree 1 ≠ null) (second : s.tree 2 ≠ null) :
    malloc place.heapPtr s.tree size = some (s.tree, null) := by
  have root : s.tree 0 = branchNode := tracked.wf.parent 1 Nat.one_pos first
  have used : s.tree 0 ≠ null := by
    rw [root]
    exact branch_not_null
  rw [malloc_whole place.heapPtr size s.tree fits bytes, if_neg used, if_neg first, if_neg second,
    ← root, Function.update_eq_self]

end WholeHeap

theorem malloc_serves {place : Placement} {s : State} (tracked : Tracked place s) (size : Nat)
    (spared : Spared s (.malloc size)) : Serves place s size := by
  by_cases large : heapSize < size
  · exact Or.inl (by rw [malloc, if_pos large])
  · have fits := Nat.not_lt.mp large
    obtain ⟨released, halves⟩ := spared fits
    obtain ⟨target, shallow, bytes, half⟩ := blockSizeFor_level size fits
    by_cases deep : 1 ≤ target
    · by_cases root : IsLeaf (s.tree 0)
      · exact serves_over_root tracked root released size target fits bytes deep shallow
      · exact serves_open tracked root size target fits bytes deep shallow
    · have whole : blockSizeFor size = heapSize := by
        rw [bytes, show target = 0 by omega]
        rfl
      rcases halves (by omega) with vacant | ⟨first, second⟩
      · exact serves_whole tracked vacant fits whole
      · exact Or.inl (whole_refused tracked fits whole first second)

theorem serves_safe {place : Placement} {s : State} {size : Nat} (serves : Serves place s size) :
    ReturnsSafeBlock place s size := by
  rcases serves with failed | ⟨tree, j, answer, inside, bytes, _, apart⟩
  · exact ⟨s.tree, null, failed, fun found => absurd rfl found⟩
  · obtain ⟨low, high, aligned⟩ := nodeBlock_inside place j inside
    rw [blockSizeFor_max] at bytes
    refine ⟨tree, _, answer, fun _ => ?_⟩
    rw [bytes]
    exact ⟨low, high, aligned, apart⟩

theorem tracked_step (place : Placement) (s : State) (call : Call) (after : State)
    (tracked : Tracked place s) (spared : Spared s call) (stepped : step place s call = some after) :
    Tracked place after := by
  cases call with
  | malloc size =>
      rcases malloc_serves tracked size spared with failed | ⟨tree, j, answer, inside, bytes, kept, _⟩
      · simp only [step, failed, Option.map_some, if_true, Option.some.injEq] at stepped
        rw [← stepped]
        exact tracked
      · have found := (nodeAddr_leaf place j inside).1
        simp only [step, answer, Option.map_some, if_neg found, Option.some.injEq, bytes] at stepped
        rw [← stepped]
        exact kept
  | free ptr =>
      obtain ⟨tree, answer, freed, wf, keeps⟩ := free_spec tracked.wf ptr
      simp only [step, freed, Option.map_some, Option.some.injEq] at stepped
      rw [← stepped]
      refine ⟨wf, fun block member => ?_⟩
      obtain ⟨old, other⟩ := List.mem_filter.mp member
      obtain ⟨i, leaf, same⟩ := tracked.live block old
      have apart : s.tree i ≠ ptr := by
        rw [tracked.wf.address i leaf]
        simpa [same, nodeBlock] using other
      exact ⟨i, by simpa only [keeps i leaf apart] using leaf, same⟩

theorem run_tracked (place : Placement) {s : State}
    (reached : Reaches (step place) Spared (· = initial) s) : Tracked place s :=
  reached.invariant (Tracked place)
    (by rintro _ rfl; exact ⟨heapInit_wellFormed place, by simp [initial]⟩) (tracked_step place)

/-- Along every run of spared calls, each spared `malloc` completes and what it
returns is a block of the heap, aligned to its size and apart from every block
still live. -/
theorem malloc_safe_along_runs (place : Placement) (s : State)
    (reached : Reaches (step place) Spared (· = initial) s) (size : Nat)
    (spared : Spared s (.malloc size)) : ReturnsSafeBlock place s size :=
  serves_safe (malloc_serves (run_tracked place reached) size spared)

def sramPlacement : Placement := ⟨0x20000800, by decide, by decide⟩

def fourBlocks : List Call := [.malloc 1000, .malloc 300, .malloc 100, .malloc 2000]

/-- The second of the four is given back, which leaves a hole of 512 bytes. -/
def fragmented : List Call := fourBlocks ++ [.free 0x20000C00]

/-- A request that does not fit the hole: the search visits a taken node of the right
size and climbs twice. -/
theorem fragmented_ran :
    ∃ s ∈ exec (step sramPlacement) initial fragmented,
      s.live = [⟨0x20001000, 2048⟩, ⟨0x20000E00, 128⟩, ⟨0x20000800, 1024⟩] ∧
      (malloc 0x20000800 s.tree 600).map Prod.snd = some 0x20001800 := by
  decide +kernel

theorem malloc_safe_along_runs_fragmented :
    ∃ s, exec (step sramPlacement) initial fragmented = some s ∧
      s.live = [⟨0x20001000, 2048⟩, ⟨0x20000E00, 128⟩, ⟨0x20000800, 1024⟩] ∧
      (malloc 0x20000800 s.tree 600).map Prod.snd = some 0x20001800 ∧
      ReturnsSafeBlock sramPlacement s 600 := by
  obtain ⟨s, executed, live, answer⟩ := fragmented_ran
  have begun : Reaches (step sramPlacement) Spared (· = initial) initial := .start rfl
  have reached := exec_reaches fragmented begun (by decide +kernel) executed
  have spared : Spared s (.malloc 600) := fun _ => ⟨by rw [live]; decide, fun large => nomatch large⟩
  exact ⟨s, executed, live, answer, malloc_safe_along_runs sramPlacement s reached 600 spared⟩

/-- Two requests for the whole heap in a row return the same address. -/
theorem whole_heap_returned_twice :
    ∃ s, exec (step sramPlacement) initial [.malloc 131072] = some s ∧
      ¬ ReturnsSafeBlock sramPlacement s 131072 := by
  refine ⟨⟨Function.update heapInit 0 0x20000800, [⟨0x20000800, 131072⟩]⟩, rfl, ?_⟩
  rintro ⟨tree, ptr, answer, safe⟩
  have second : (malloc 0x20000800 (Function.update heapInit 0 0x20000800) 131072).map Prod.snd =
      some 0x20000800 := by decide
  have returned : ptr = 0x20000800 :=
    Option.some.inj ((congrArg (Option.map Prod.snd) answer).symm.trans second)
  obtain ⟨_, _, _, apart⟩ := safe (by rw [returned]; decide)
  have meets := apart ⟨0x20000800, 131072⟩ (List.mem_singleton.mpr rfl)
  rw [returned, show max (nextPow2 131072) heapSizeMin = 131072 by decide] at meets
  revert meets
  simp [Apart]

end MulticoreRtos.Heap
