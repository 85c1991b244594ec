import MulticoreRtos.HeapStats
import MulticoreRtos.HeapShape

/-!
The three walks over `heap_tree`. For each pass of a loop the list of the
indices at which it reads or writes `heap_tree` is taken from the source, with
no test that the source does not make. `trace` is the list of the states at the
start of the passes, up to the last one.
-/

namespace MulticoreRtos.HeapWalks

open Heap Transition

section Loop
variable {State Result : Type}

def trace (next : State → Option State) : Nat → State → Option (List State)
  | 0, _ => none
  | fuel + 1, s =>
      match next s with
      | some after => (trace next fuel after).map (s :: ·)
      | none => some [s]

/-- What a loop with an answer does in each pass, seen as passes in a row. -/
theorem trace_of_loop {next : State → Option State} {loop : Nat → State → Option Result}
    {safe : State → Prop} (empty : ∀ s, loop 0 s = none)
    (pass : ∀ fuel s result, loop (fuel + 1) s = some result →
      safe s ∧ (next s = none ∨ ∃ after, next s = some after ∧ loop fuel after = some result))
    (fuel : Nat) : ∀ s result, loop fuel s = some result →
      ∃ states, trace next fuel s = some states ∧ ∀ t ∈ states, safe t := by
  induction fuel with
  | zero =>
      intro s result answer
      cases (empty s).symm.trans answer
  | succ fuel ih =>
      intro s result answer
      obtain ⟨here, last | ⟨after, again, rest⟩⟩ := pass fuel s result answer
      · exact ⟨[s], by simp only [trace, last], by simpa using here⟩
      · obtain ⟨states, traced, later⟩ := ih after result rest
        exact ⟨s :: states, by simp only [trace, again, traced, Option.map_some],
          List.forall_mem_cons.mpr ⟨here, later⟩⟩

end Loop

/-! The passes of the source -/

def mallocNext (heapPtr size : Nat) (s : Search) : Option Search :=
  match mallocStep heapPtr size s with
  | .again next => some next
  | .stop _ _ | .fault => none

/-- The node itself is read, and written as an allocated node or as a branch;
`right` is read only behind `left`. -/
def mallocIndices (size : Nat) (s : Search) : List Nat :=
  if s.blockSize = size then [s.i]
  else
    let tree := Function.update s.tree s.i branchNode
    let left := (2 * s.i + 1) % 2 ^ 16
    let right := (2 * s.i + 2) % 2 ^ 16
    if right = s.skip then [s.i]
    else if IsLeaf (tree left) ∨ left = s.skip then [s.i, left, right]
    else [s.i, left]

def findNext (tree : Tree) (ptr : Nat) (s : Probe) : Option Probe :=
  match findStep tree ptr s with
  | some (.inl next) => some next
  | some (.inr _) | none => none

/-- The test of `right` lets `HEAP_TREE_NODE_CNT` itself pass. -/
def findIndices (tree : Tree) (ptr : Nat) (s : Probe) : List Nat :=
  let left := (2 * s.i + 1) % 2 ^ 16
  let right := (2 * s.i + 2) % 2 ^ 16
  let atLeft := if left < heapTreeNodeCnt then [left] else []
  if tree s.i = ptr ∨ right = s.skip then [s.i]
  else if heapTreeNodeCnt ≤ left ∨ tree left = null ∨ left = s.skip then
    s.i :: atLeft ++ if right ≤ heapTreeNodeCnt then [right] else []
  else s.i :: atLeft

def statsNext (tree : Tree) (w : Walk) : Option Walk :=
  match statsStep tree w with
  | .again next => some next
  | .stop _ | .fault => none

def childIndices (tree : Tree) (w : Walk) : List Nat :=
  let left := 2 * w.i + 1
  let right := 2 * w.i + 2
  if right = w.skip then []
  else if tree left = null ∨ left = w.skip then [left, right]
  else [left]

/-- After a leaf other than the root the pass goes on at the parent, which is not
read again. -/
def statsIndices (tree : Tree) (w : Walk) : List Nat :=
  if IsLeaf (tree w.i) then
    if w.i = 0 then [w.i] else w.i :: childIndices tree { w with i := traverseUp w.i, skip := w.i }
  else w.i :: childIndices tree w

/-- The loop ends, and each of its passes stays inside `heap_tree`. -/
def Bounded {State : Type} (next : State → Option State) (indices : State → List Nat)
    (begun : State) : Prop :=
  ∃ states, trace next searchFuel begun = some states ∧
    ∀ s ∈ states, ∀ i ∈ indices s, i < heapTreeNodeCnt

structure WalksBounded (heapPtr : Nat) (tree : Tree) : Prop where
  malloc : ∀ size, size ≤ heapSize →
    Bounded (mallocNext heapPtr (blockSizeFor size)) (mallocIndices (blockSizeFor size))
      ⟨tree, 0, heapSize, 0⟩
  findPtr : ∀ ptr, Bounded (findNext tree ptr) (findIndices tree ptr) ⟨0, 0⟩
  heapStats : Bounded (statsNext tree) (statsIndices tree) ⟨0, 0, heapSize, 0⟩

/-! A pass without a fault stays inside. -/

theorem malloc_inside {heapPtr size : Nat} {s : Search}
    (sound : mallocStep heapPtr size s ≠ .fault) :
    ∀ i ∈ mallocIndices size s, i < heapTreeNodeCnt := by
  unfold mallocStep at sound
  unfold mallocIndices
  by_cases outside : heapTreeNodeCnt ≤ s.i
  · exact absurd (if_pos outside) sound
  rw [if_neg outside] at sound
  have here := Nat.not_le.mp outside
  by_cases fits : s.blockSize = size
  · rw [if_pos fits]
    simpa using here
  rw [if_neg fits] at sound ⊢
  dsimp only at sound ⊢
  generalize (2 * s.i + 1) % 2 ^ 16 = left at sound ⊢
  generalize (2 * s.i + 2) % 2 ^ 16 = right at sound ⊢
  by_cases done : right = s.skip
  · rw [if_pos done]
    simpa using here
  rw [if_neg done] at sound ⊢
  by_cases beyond : heapTreeNodeCnt ≤ left
  · exact absurd (if_pos beyond) sound
  rw [if_neg beyond] at sound
  have left_inside := Nat.not_le.mp beyond
  by_cases past : IsLeaf (Function.update s.tree s.i branchNode left) ∨ left = s.skip
  · rw [if_pos past] at sound ⊢
    by_cases far : heapTreeNodeCnt ≤ right
    · exact absurd (if_pos far) sound
    · simpa using ⟨here, left_inside, Nat.not_le.mp far⟩
  · rw [if_neg past]
    simpa using ⟨here, left_inside⟩

theorem find_inside {tree : Tree} {ptr : Nat} {s : Probe} (sound : findStep tree ptr s ≠ none) :
    ∀ i ∈ findIndices tree ptr s, i < heapTreeNodeCnt := by
  unfold findStep at sound
  unfold findIndices
  by_cases outside : heapTreeNodeCnt ≤ s.i
  · exact absurd (if_pos outside) sound
  rw [if_neg outside] at sound
  have here := Nat.not_le.mp outside
  by_cases found : tree s.i = ptr
  · dsimp only
    rw [if_pos (Or.inl found)]
    simpa using here
  rw [if_neg found] at sound
  dsimp only at sound ⊢
  generalize (2 * s.i + 1) % 2 ^ 16 = left at sound ⊢
  generalize (2 * s.i + 2) % 2 ^ 16 = right at sound ⊢
  by_cases done : right = s.skip
  · rw [if_pos (Or.inr done)]
    simpa using here
  rw [if_neg done] at sound
  rw [if_neg (not_or.mpr ⟨found, done⟩)]
  have at_left : ∀ i ∈ (if left < heapTreeNodeCnt then [left] else []), i < heapTreeNodeCnt := by
    split
    next inside => simpa using inside
    next => simp
  by_cases past : heapTreeNodeCnt ≤ left ∨ tree left = null ∨ left = s.skip
  · rw [if_pos past] at sound ⊢
    have at_right : ∀ i ∈ (if right ≤ heapTreeNodeCnt then [right] else []), i < heapTreeNodeCnt := by
      split
      next near =>
        rw [if_neg (Nat.not_lt.mpr near)] at sound
        by_cases far : heapTreeNodeCnt ≤ right
        · exact absurd (if_pos far) sound
        · simpa using Nat.not_le.mp far
      next => simp
    exact List.forall_mem_append.mpr ⟨List.forall_mem_cons.mpr ⟨here, at_left⟩, at_right⟩
  · rw [if_neg past]
    exact List.forall_mem_cons.mpr ⟨here, at_left⟩

theorem children_inside {tree : Tree} {w : Walk} (sound : visitChildren tree w ≠ .fault) :
    ∀ i ∈ childIndices tree w, i < heapTreeNodeCnt := by
  unfold visitChildren at sound
  unfold childIndices
  dsimp only at sound ⊢
  by_cases done : 2 * w.i + 2 = w.skip
  · rw [if_pos done]
    simp
  rw [if_neg done] at sound ⊢
  by_cases beyond : heapTreeNodeCnt ≤ 2 * w.i + 1
  · exact absurd (if_pos beyond) sound
  rw [if_neg beyond] at sound
  have left_inside := Nat.not_le.mp beyond
  by_cases past : tree (2 * w.i + 1) = null ∨ 2 * w.i + 1 = w.skip
  · rw [if_pos past] at sound ⊢
    by_cases far : heapTreeNodeCnt ≤ 2 * w.i + 2
    · exact absurd (if_pos far) sound
    · simpa using ⟨left_inside, Nat.not_le.mp far⟩
  · rw [if_neg past]
    simpa using left_inside

theorem stats_inside {tree : Tree} {w : Walk} (sound : statsStep tree w ≠ .fault) :
    ∀ i ∈ statsIndices tree w, i < heapTreeNodeCnt := by
  unfold statsStep at sound
  unfold statsIndices
  by_cases outside : heapTreeNodeCnt ≤ w.i
  · exact absurd (if_pos outside) sound
  rw [if_neg outside] at sound
  have here := Nat.not_le.mp outside
  by_cases leaf : IsLeaf (tree w.i)
  · rw [if_pos leaf] at sound ⊢
    by_cases root : w.i = 0
    · rw [if_pos root]
      simpa using here
    · dsimp only at sound
      rw [if_neg root] at sound ⊢
      have children := children_inside sound
      exact List.forall_mem_cons.mpr ⟨here, children⟩
  · rw [if_neg leaf] at sound ⊢
    exact List.forall_mem_cons.mpr ⟨here, children_inside sound⟩

/-! An answer means that the loop ended without a fault. -/

theorem malloc_ends {heapPtr size : Nat} {begun : Search} {result : Tree × Nat}
    (answer : mallocLoop heapPtr size searchFuel begun = some result) :
    Bounded (mallocNext heapPtr size) (mallocIndices size) begun := by
  apply trace_of_loop (fun _ => rfl) _ searchFuel begun result answer
  intro fuel s result answer
  unfold mallocLoop at answer
  cases moved : mallocStep heapPtr size s with
  | again after =>
      have inside := malloc_inside (show mallocStep heapPtr size s ≠ .fault by simp [moved])
      simp only [moved] at answer
      exact ⟨inside, Or.inr ⟨after, by simp [mallocNext, moved], answer⟩⟩
  | stop tree ptr =>
      have inside := malloc_inside (show mallocStep heapPtr size s ≠ .fault by simp [moved])
      exact ⟨inside, Or.inl (by simp [mallocNext, moved])⟩
  | fault => simp [moved] at answer

theorem find_ends {tree : Tree} {ptr : Nat} {begun : Probe} {result : Nat}
    (answer : findLoop tree ptr searchFuel begun = some result) :
    Bounded (findNext tree ptr) (findIndices tree ptr) begun := by
  apply trace_of_loop (fun _ => rfl) _ searchFuel begun result answer
  intro fuel s result answer
  unfold findLoop at answer
  cases moved : findStep tree ptr s with
  | none => simp [moved] at answer
  | some outcome =>
      have inside := find_inside (show findStep tree ptr s ≠ none by simp [moved])
      cases outcome with
      | inl after =>
          simp only [moved] at answer
          exact ⟨inside, Or.inr ⟨after, by simp [findNext, moved], answer⟩⟩
      | inr i => exact ⟨inside, Or.inl (by simp [findNext, moved])⟩

theorem stats_ends {tree : Tree} {begun : Walk} {result : Nat}
    (answer : statsLoop tree searchFuel begun = some result) :
    Bounded (statsNext tree) (statsIndices tree) begun := by
  apply trace_of_loop (fun _ => rfl) _ searchFuel begun result answer
  intro fuel s result answer
  unfold statsLoop at answer
  cases moved : statsStep tree s with
  | again after =>
      simp only [moved] at answer
      exact ⟨stats_inside (by simp [moved]), Or.inr ⟨after, by simp [statsNext, moved], answer⟩⟩
  | stop used => exact ⟨stats_inside (by simp [moved]), Or.inl (by simp [statsNext, moved])⟩
  | fault => simp [moved] at answer

theorem shaped_walks (heapPtr : Nat) {tree : Tree} (shaped : Shaped tree) :
    WalksBounded heapPtr tree := by
  constructor
  · intro size fits
    obtain ⟨result, answer⟩ : ∃ result, malloc heapPtr tree size = some result := by
      rcases malloc_cases heapPtr shaped size with failed | ⟨after, j, ptr, taken⟩
      · exact ⟨_, failed⟩
      · exact ⟨_, taken.answer⟩
    rw [malloc, if_neg (Nat.not_lt.mpr fits)] at answer
    exact malloc_ends answer
  · exact fun ptr => find_ends (findPtr_locate tree ptr)
  · obtain ⟨used, answer, _⟩ := Option.map_eq_some_iff.mp (heapStats_used shaped)
    exact stats_ends answer

/-! Runs with calls of `heap_stats` -/

inductive Call where
  | heap (call : Heap.Call)
  | heapStats

def step (place : Placement) (s : Heap.State) : Call → Option Heap.State
  | .heap call => Heap.step place s call
  | .heapStats => (heapStats s.tree).map fun _ => s

theorem shape_step (place : Placement) (before : Heap.State) (call : Call) (after : Heap.State)
    (shaped : Shaped before.tree) (stepped : step place before call = some after) :
    Shaped after.tree := by
  cases call with
  | heap call => exact shaped_step place before call after shaped stepped
  | heapStats =>
      obtain ⟨_, _, rfl⟩ := Option.map_eq_some_iff.mp stepped
      exact shaped

/-- In every state after any calls each walk ends, however it is asked, and
stays inside `heap_tree`. -/
theorem walks_along_runs (place : Placement) (s : Heap.State)
    (reached : Reaches (step place) Transition.free (· = initial) s) :
    WalksBounded place.heapPtr s.tree := by
  have shaped : Shaped s.tree := by
    apply reached.invariant fun s => Shaped s.tree
    · rintro _ rfl
      exact heapInit_shaped
    · exact fun before call after shaped _ => shape_step place before call after shaped
  exact shaped_walks place.heapPtr shaped

def crossedRun : List Call :=
  [.heap (.malloc 131072), .heapStats, .heap (.malloc 70000), .heap (.free 5), .heap (.malloc 1),
    .heapStats]

theorem walks_along_runs_crossed :
    ∃ s, exec (step sramPlacement) initial crossedRun = some s ∧
      WalksBounded sramPlacement.heapPtr s.tree := by
  obtain ⟨s, executed⟩ : ∃ s, exec (step sramPlacement) initial crossedRun = some s := by
    apply Option.isSome_iff_exists.mp
    decide +kernel
  exact ⟨s, executed, walks_along_runs sramPlacement s
    (exec_reaches crossedRun (.start rfl) (allowed_free _ _ _) executed)⟩

end MulticoreRtos.HeapWalks
