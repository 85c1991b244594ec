import MulticoreRtos.FirstFit
import MulticoreRtos.HeapStats

/-!
What the allocator is for, without its tree: the blocks in use, and the lowest
aligned address that none of them meets. The tree of `heap.c` answers every
sequence of calls as this allocator does, and it holds nothing that the blocks in
use do not determine.
-/

namespace MulticoreRtos.Heap

open DyadicTree Transition

def extentOf (heapPtr : Nat) (block : Block) : FirstFit.Extent := ⟨block.ptr - heapPtr, block.bytes⟩

def extents (heapPtr : Nat) (live : List Block) : List FirstFit.Extent := live.map (extentOf heapPtr)

/-- The abstract allocator: the blocks in use after a call, and its answer. -/
def specCall (heapPtr : Nat) (held : List FirstFit.Extent) : Call → List FirstFit.Extent × Nat
  | .malloc size =>
      match FirstFit.allocate heapSize held (blockSizeFor size) with
      | some taken => (taken :: held, heapPtr + taken.start)
      | none => (held, null)
  | .free ptr =>
      (held.filter fun extent => heapPtr + extent.start ≠ ptr,
        if ∃ extent ∈ held, heapPtr + extent.start = ptr then 0 else 1)

def specAnswers (heapPtr : Nat) : List FirstFit.Extent → List Call → List Nat
  | _, [] => []
  | held, call :: rest =>
      (specCall heapPtr held call).2 :: specAnswers heapPtr (specCall heapPtr held call).1 rest

/-- A call of the code on `heap_tree`, which is all the code keeps. -/
def treeCall (heapPtr : Nat) (tree : Tree) : Call → Option (Tree × Nat)
  | .malloc size => malloc heapPtr tree size
  | .free ptr => free tree ptr

def treeAnswers (heapPtr : Nat) : Tree → List Call → Option (List Nat)
  | _, [] => some []
  | tree, call :: rest =>
      match treeCall heapPtr tree call with
      | some (after, answer) => (treeAnswers heapPtr after rest).map (answer :: ·)
      | none => none

/-! A node and the blocks of the leaves. -/

theorem meeting_related (heapPtr i k : Nat) (i_inside : i < heapTreeNodeCnt)
    (k_inside : k < heapTreeNodeCnt) (meets : ¬ Apart (nodeBlock heapPtr i) (nodeBlock heapPtr k)) :
    i = k ∨ Ancestor i k ∨ Ancestor k i := by
  obtain ⟨i_level, i_shallow⟩ := node_level i i_inside
  obtain ⟨k_level, k_shallow⟩ := node_level k k_inside
  have deep : heapTreeLevelCnt ≤ heapAddrLen := by decide
  obtain ⟨byte, in_i, in_k⟩ := common_byte _ _ (Nat.two_pow_pos _) (Nat.two_pow_pos _) meets
  simp only [nodeBlock, nodeAddr] at in_i in_k
  have related : ∀ steps a b, Above steps a b → a = b ∨ Ancestor a b := by
    intro steps a b above
    cases steps with
    | zero => exact Or.inl (by unfold Above at above; simpa using above)
    | succ steps => exact Or.inr ⟨steps, above⟩
  rcases Nat.le_total (Nat.log 2 (i + 1)) (Nat.log 2 (k + 1)) with order | order
  · have above := overlap_above heapAddrLen _ _ i k (byte - heapPtr) i_level k_level order
      (k_shallow.trans deep) (by omega) (by omega)
    exact (related _ i k above).imp_right Or.inl
  · have above := overlap_above heapAddrLen _ _ k i (byte - heapPtr) k_level i_level order
      (i_shallow.trans deep) (by omega) (by omega)
    exact (related _ k i above).imp Eq.symm Or.inr

theorem block_below (steps level a i : Nat) (at_level : AtLevel level a)
    (shallow : level + steps ≤ heapAddrLen) (above : Above steps a i) :
    blockStart heapAddrLen a ≤ blockStart heapAddrLen i ∧
      blockStart heapAddrLen i + blockBytes heapAddrLen i ≤
        blockStart heapAddrLen a + blockBytes heapAddrLen a := by
  have i_level := above_level steps level a i above at_level
  have a_range := block_range heapAddrLen level a at_level (by omega)
  have a_bytes : blockBytes heapAddrLen a = 2 ^ steps * blockBytes heapAddrLen i := by
    rw [blockBytes_at heapAddrLen level a at_level, blockBytes_at heapAddrLen _ i i_level, ← pow_add]
    congr 1
    omega
  have low : (a + 1) * 2 ^ steps ≤ i + 1 := by
    unfold Above at above
    rw [above]
    exact Nat.div_mul_le_self _ _
  have high : i + 2 ≤ (a + 2) * 2 ^ steps := by
    have less := Nat.lt_div_mul_add (a := i + 1) (Nat.two_pow_pos steps)
    unfold Above at above
    rw [← above] at less
    calc i + 2 ≤ (a + 1) * 2 ^ steps + 2 ^ steps := less
      _ = (a + 2) * 2 ^ steps := by ring
  have start : (a + 1) * blockBytes heapAddrLen a ≤ (i + 1) * blockBytes heapAddrLen i := by
    rw [a_bytes, ← Nat.mul_assoc]
    exact Nat.mul_le_mul_right _ low
  have stop : (i + 2) * blockBytes heapAddrLen i ≤ (a + 2) * blockBytes heapAddrLen a := by
    rw [a_bytes, ← Nat.mul_assoc]
    exact Nat.mul_le_mul_right _ high
  have i_next : (i + 2) * blockBytes heapAddrLen i =
      (i + 1) * blockBytes heapAddrLen i + blockBytes heapAddrLen i := by ring
  have a_next : (a + 2) * blockBytes heapAddrLen a =
      (a + 1) * blockBytes heapAddrLen a + blockBytes heapAddrLen a := by ring
  unfold blockStart
  omega

theorem related_meets (heapPtr a i : Nat) (inside : i < heapTreeNodeCnt)
    (related : a = i ∨ Ancestor a i) : ¬ Apart (nodeBlock heapPtr a) (nodeBlock heapPtr i) := by
  have a_bytes : 0 < blockBytes heapAddrLen a := Nat.two_pow_pos _
  have i_bytes : 0 < blockBytes heapAddrLen i := Nat.two_pow_pos _
  rcases related with rfl | ⟨steps, above⟩
  · simp only [Apart, nodeBlock]
    omega
  · have level := above_level _ _ a i above (level_log a)
    have unique := level_unique _ i level
    have bound := (node_level i inside).2
    have deep : heapTreeLevelCnt ≤ heapAddrLen := by decide
    have within := block_below (steps + 1) _ a i (level_log a) (by omega) above
    simp only [Apart, nodeBlock, nodeAddr]
    omega

theorem leaf_at_or_below {tree : Tree} (shaped : Shaped tree) (i : Nat) (taken : tree i ≠ null) :
    ∃ k, IsLeaf (tree k) ∧ (i = k ∨ Ancestor i k) := by
  have down : ∀ n i, heapTreeNodeCnt - i ≤ n → tree i ≠ null →
      ∃ k, IsLeaf (tree k) ∧ (i = k ∨ Ancestor i k) := by
    intro n
    induction n with
    | zero =>
        intro i low used
        have inside := shaped.node_inside i used
        omega
    | succ n ih =>
        intro i low used
        by_cases branch : tree i = branchNode
        · have child_of : ∀ child, up child = i → i < child → tree child ≠ null →
              ∃ k, IsLeaf (tree k) ∧ (i = k ∨ Ancestor i k) := by
            intro child parent below child_used
            have step : Ancestor i child :=
              (ancestor_up i child (Nat.zero_lt_of_lt below)).mpr (Or.inl parent.symm)
            have inside := shaped.node_inside child child_used
            obtain ⟨k, leaf, reaches⟩ := ih child (by omega) child_used
            refine ⟨k, leaf, Or.inr ?_⟩
            rcases reaches with rfl | further
            · exact step
            · exact ancestor_trans i child k step further
          rcases shaped.branch i branch with used_left | used_right
          · exact child_of (left i) (up_left i) (left_gt i) used_left
          · exact child_of (right i) (up_right i) (right_gt i) used_right
        · exact ⟨i, ⟨used, branch⟩, Or.inl rfl⟩
  exact down _ i le_rfl taken

/-- A candidate is a node whose block meets no allocated block. -/
theorem candidate_iff_apart {tree : Tree} (shaped : Shaped tree) (heapPtr level k : Nat)
    (at_level : AtLevel level k) (inside : k < heapTreeNodeCnt) :
    Candidate tree level k ↔
      ∀ i, IsLeaf (tree i) → Apart (nodeBlock heapPtr k) (nodeBlock heapPtr i) := by
  constructor
  · rintro ⟨_, vacant, open_path⟩ i leaf
    by_contra meets
    -- an allocated block below makes the node a branch, one above closes the way to it
    rcases meeting_related heapPtr k i inside (shaped.node_inside i leaf.1) meets with
      rfl | below | above
    · exact leaf.1 vacant
    · rw [shaped.ancestor_branch k i below leaf.1] at vacant
      exact branch_not_null vacant
    · exact open_path i above leaf
  · intro apart
    refine ⟨at_level, ?_, fun a above leaf => ?_⟩
    · by_contra taken
      obtain ⟨i, leaf, related⟩ := leaf_at_or_below shaped k taken
      exact related_meets heapPtr k i (shaped.node_inside i leaf.1) related (apart i leaf)
    · exact related_meets heapPtr a k inside (Or.inr above) (Or.symm (apart a leaf))

/-! The tree against the abstract allocator. -/

theorem extentOf_node (place : Placement) (level k : Nat) (at_level : AtLevel level k)
    (shallow : level ≤ heapTreeLevelCnt) :
    extentOf place.heapPtr (nodeBlock place.heapPtr k) =
      FirstFit.slot (levelBytes level) (k + 1 - 2 ^ level) := by
  rw [extentOf, nodeBlock, nodeAddr_level place.heapPtr level k at_level shallow,
    Nat.add_sub_cancel_left, blockBytes_at heapAddrLen level k at_level, ← levelBytes]
  rfl

theorem extentOf_apart (heapPtr : Nat) {a b : Block} (a_low : heapPtr ≤ a.ptr)
    (b_low : heapPtr ≤ b.ptr) :
    FirstFit.Apart (extentOf heapPtr a) (extentOf heapPtr b) ↔ Apart a b := by
  simp only [FirstFit.Apart, Apart, extentOf]
  omega

structure Mirrors (place : Placement) (s : State) : Prop where
  exact : Exact place s
  apart : s.live.Pairwise Apart

theorem Mirrors.low {place : Placement} {s : State} (mirrors : Mirrors place s) {block : Block}
    (member : block ∈ s.live) : place.heapPtr ≤ block.ptr := by
  obtain ⟨i, leaf, rfl⟩ := mirrors.exact.tracked.live block member
  exact (nodeBlock_inside place i (mirrors.exact.tracked.wf.shaped.node_inside i leaf.1)).1

theorem candidate_iff_vacant {place : Placement} {s : State} (mirrors : Mirrors place s)
    (level k : Nat) (at_level : AtLevel level k) (shallow : level ≤ heapTreeLevelCnt) :
    Candidate s.tree level k ↔
      FirstFit.Vacant (extents place.heapPtr s.live) (levelBytes level) (k + 1 - 2 ^ level) := by
  have shaped := mirrors.exact.tracked.wf.shaped
  have inside := node_bound level k at_level shallow
  have low : place.heapPtr ≤ (nodeBlock place.heapPtr k).ptr := (nodeBlock_inside place k inside).1
  rw [candidate_iff_apart shaped place.heapPtr level k at_level inside]
  unfold FirstFit.Vacant
  rw [← extentOf_node place level k at_level shallow]
  constructor
  · intro apart extent member
    obtain ⟨block, live, rfl⟩ := List.mem_map.mp member
    obtain ⟨i, leaf, same⟩ := mirrors.exact.tracked.live block live
    rw [extentOf_apart place.heapPtr low (mirrors.low live), same]
    exact apart i leaf
  · intro vacant i leaf
    have live := mirrors.exact.held i leaf
    rw [← extentOf_apart place.heapPtr low (mirrors.low live)]
    exact vacant _ (List.mem_map_of_mem live)

theorem level_slots (level : Nat) (shallow : level ≤ heapTreeLevelCnt) :
    heapSize / levelBytes level = 2 ^ level := by
  have split : heapSize = 2 ^ level * levelBytes level := by
    rw [levelBytes, ← pow_add, Nat.add_sub_cancel' (shallow.trans (by decide))]
    rfl
  have positive : 0 < levelBytes level := Nat.two_pow_pos _
  rw [split, Nat.mul_div_cancel _ positive]

theorem slot_node (level k : Nat) (within : k < 2 ^ level) :
    AtLevel level (2 ^ level - 1 + k) ∧ 2 ^ level - 1 + k + 1 - 2 ^ level = k := by
  have positive := Nat.two_pow_pos level
  unfold AtLevel
  rw [pow_succ]
  omega

theorem malloc_allocates {place : Placement} {s : State} (mirrors : Mirrors place s) (size : Nat)
    (modest : size ≤ heapSize / 2) :
    match FirstFit.allocate heapSize (extents place.heapPtr s.live) (blockSizeFor size) with
    | none => malloc place.heapPtr s.tree size = some (s.tree, null)
    | some taken => taken.bytes = blockSizeFor size ∧ ∃ after,
        malloc place.heapPtr s.tree size = some (after, place.heapPtr + taken.start) ∧
        IsLeaf (place.heapPtr + taken.start) := by
  obtain ⟨fits, level, deep, shallow, bytes⟩ := modest_level size modest
  have shaped := mirrors.exact.tracked.wf.shaped
  rw [bytes, FirstFit.allocate, level_slots level shallow]
  rcases malloc_fits place.heapPtr shaped mirrors.exact.root size level fits bytes deep shallow with
    ⟨failed, absent⟩ | ⟨j, after, answer, candidate, leftmost, _⟩
  · have full : FirstFit.firstVacant (extents place.heapPtr s.live) (levelBytes level) (2 ^ level) =
        none := by
      rw [FirstFit.firstVacant_none]
      -- a vacant slot would be a candidate
      intro k within vacant
      obtain ⟨at_level, index⟩ := slot_node level k within
      apply absent (2 ^ level - 1 + k)
      rw [candidate_iff_vacant mirrors level _ at_level shallow, index]
      exact vacant
    rw [full]
    exact failed
  · have at_level := candidate.1
    have first : FirstFit.firstVacant (extents place.heapPtr s.live) (levelBytes level) (2 ^ level) =
        some (j + 1 - 2 ^ level) := by
      have bounds := at_level
      unfold AtLevel at bounds
      rw [pow_succ] at bounds
      rw [FirstFit.firstVacant_some]
      refine ⟨by omega, (candidate_iff_vacant mirrors level j at_level shallow).mp candidate, ?_⟩
      -- nodes further left are lower slots
      intro k before vacant
      obtain ⟨other_level, index⟩ := slot_node level k (by omega)
      have other : Candidate s.tree level (2 ^ level - 1 + k) := by
        rw [candidate_iff_vacant mirrors level _ other_level shallow, index]
        exact vacant
      have order := leftmost _ other
      omega
    have address := nodeAddr_level place.heapPtr level j at_level shallow
    have leaf := nodeAddr_leaf place j (node_bound level j at_level shallow)
    rw [first]
    rw [address] at answer leaf
    exact ⟨rfl, after, answer, leaf⟩

theorem free_releases {place : Placement} {s : State} (mirrors : Mirrors place s) (ptr : Nat) :
    ∃ after, free s.tree ptr = some (after, if ∃ block ∈ s.live, block.ptr = ptr then 0 else 1) := by
  have exact := mirrors.exact
  have shaped := exact.tracked.wf.shaped
  by_cases held : ∃ block ∈ s.live, block.ptr = ptr
  · rw [if_pos held]
    obtain ⟨block, member, rfl⟩ := held
    obtain ⟨i, leaf, rfl⟩ := exact.tracked.live block member
    have here : s.tree i = nodeAddr place.heapPtr i := exact.tracked.wf.address i leaf
    rcases free_cases shaped (nodeAddr place.heapPtr i) with
      ⟨_, root | absent⟩ | ⟨_, after, freed, _⟩
    · exact absurd (root.trans here.symm ▸ leaf) exact.root
    · exact absurd here (absent i leaf.1)
    · exact ⟨after, freed⟩
  · rw [if_neg held]
    rcases free_cases shaped ptr with ⟨refused, _⟩ | ⟨i, _, _, _, holds, leaf, _⟩
    · exact ⟨s.tree, refused⟩
    · have address := exact.tracked.wf.address i leaf
      exact absurd ⟨_, exact.held i leaf, address.symm.trans holds⟩ held

theorem mirrors_step {place : Placement} {s after : State} (mirrors : Mirrors place s) {call : Call}
    (modest : Modest s call) (stepped : step place s call = some after) : Mirrors place after := by
  refine ⟨exact_step place s call after mirrors.exact modest stepped, ?_⟩
  cases call with
  | malloc size =>
      rcases malloc_serves mirrors.exact.tracked size (mirrors.exact.spared _ modest) with
        failed | ⟨tree, j, answer, inside, bytes, _, apart⟩
      · simp only [step, failed, Option.map_some, if_true, Option.some.injEq] at stepped
        rw [← stepped]
        exact mirrors.apart
      · have found := (nodeAddr_leaf place j inside).1
        simp only [step, answer, Option.map_some, if_neg found, Option.some.injEq, bytes] at stepped
        rw [← stepped]
        exact List.pairwise_cons.mpr ⟨apart, mirrors.apart⟩
  | free ptr =>
      obtain ⟨tree, freed⟩ := free_releases mirrors ptr
      simp only [step, freed, Option.map_some, Option.some.injEq] at stepped
      rw [← stepped]
      exact mirrors.apart.filter _

theorem specCall_free {place : Placement} {s : State} (mirrors : Mirrors place s) (ptr : Nat) :
    specCall place.heapPtr (extents place.heapPtr s.live) (.free ptr) =
      (extents place.heapPtr (s.live.filter fun block => block.ptr ≠ ptr),
        if ∃ block ∈ s.live, block.ptr = ptr then 0 else 1) := by
  have address : ∀ block ∈ s.live, place.heapPtr + (extentOf place.heapPtr block).start = block.ptr :=
    fun block member => Nat.add_sub_cancel' (mirrors.low member)
  have kept : ((extents place.heapPtr s.live).filter fun extent => place.heapPtr + extent.start ≠ ptr) =
      extents place.heapPtr (s.live.filter fun block => block.ptr ≠ ptr) := by
    unfold extents
    rw [List.filter_map]
    congr 1
    apply List.filter_congr
    intro block member
    simp only [Function.comp_apply, address block member]
  have found : (∃ extent ∈ extents place.heapPtr s.live, place.heapPtr + extent.start = ptr) ↔
      ∃ block ∈ s.live, block.ptr = ptr := by
    constructor
    · rintro ⟨extent, member, here⟩
      obtain ⟨block, live, rfl⟩ := List.mem_map.mp member
      exact ⟨block, live, by rw [← address block live, here]⟩
    · rintro ⟨block, live, here⟩
      exact ⟨_, List.mem_map_of_mem live, by rw [address block live, here]⟩
  simp only [specCall, kept, found]

/-- One call: the code completes, answers as the abstract allocator does, and
leaves the blocks in use that it leaves. -/
theorem call_agrees {place : Placement} {s : State} (mirrors : Mirrors place s) {call : Call}
    (modest : Modest s call) :
    ∃ after, step place s call = some after ∧
      treeCall place.heapPtr s.tree call =
        some (after.tree, (specCall place.heapPtr (extents place.heapPtr s.live) call).2) ∧
      (specCall place.heapPtr (extents place.heapPtr s.live) call).1 =
        extents place.heapPtr after.live := by
  cases call with
  | malloc size =>
      have searched := malloc_allocates mirrors size modest
      cases served : FirstFit.allocate heapSize (extents place.heapPtr s.live) (blockSizeFor size) with
      | none =>
          rw [served] at searched
          refine ⟨s, ?_, ?_, ?_⟩
          · simp only [step, searched, Option.map_some, if_true]
          · simp only [treeCall, searched, specCall, served]
          · simp only [specCall, served]
      | some taken =>
          rw [served] at searched
          obtain ⟨bytes, after, answer, leaf⟩ := searched
          refine ⟨⟨after, ⟨place.heapPtr + taken.start, blockSizeFor size⟩ :: s.live⟩, ?_, ?_, ?_⟩
          · simp only [step, answer, Option.map_some, if_neg leaf.1]
          · simp only [treeCall, answer, specCall, served]
          · simp only [specCall, served]
            simp only [extents, List.map_cons, extentOf, Nat.add_sub_cancel_left, ← bytes]
  | free ptr =>
      obtain ⟨after, freed⟩ := free_releases mirrors ptr
      refine ⟨⟨after, s.live.filter fun block => block.ptr ≠ ptr⟩, ?_, ?_, ?_⟩
      · simp only [step, freed, Option.map_some]
      · simp only [treeCall, freed, specCall_free mirrors]
      · rw [specCall_free mirrors]

theorem initial_mirrors (place : Placement) : Mirrors place initial :=
  ⟨initial_exact place, List.Pairwise.nil⟩

theorem run_mirrors (place : Placement) {s : State}
    (reached : Reaches (step place) Modest (· = initial) s) : Mirrors place s :=
  reached.invariant (Mirrors place) (by rintro _ rfl; exact initial_mirrors place)
    fun _ _ _ mirrors modest stepped => mirrors_step mirrors modest stepped

theorem answers_agree (place : Placement) (calls : List Call) (s : State)
    (mirrors : Mirrors place s) (modest : ∀ call ∈ calls, Modest initial call) :
    treeAnswers place.heapPtr s.tree calls =
      some (specAnswers place.heapPtr (extents place.heapPtr s.live) calls) := by
  induction calls generalizing s with
  | nil => rfl
  | cons call rest ih =>
      have first : Modest s call := by
        have spared := modest call List.mem_cons_self
        cases call <;> exact spared
      obtain ⟨after, stepped, answered, kept⟩ := call_agrees mirrors first
      have tail := ih after (mirrors_step mirrors first stepped)
        fun other member => modest other (List.mem_cons_of_mem call member)
      simp only [treeAnswers, answered, tail, Option.map_some, specAnswers, kept]

/-- Every sequence of calls in which no request is for more than half of the
heap is answered as the abstract allocator answers it. -/
theorem refines_first_fit (place : Placement) (calls : List Call)
    (modest : ∀ call ∈ calls, Modest initial call) :
    treeAnswers place.heapPtr heapInit calls = some (specAnswers place.heapPtr [] calls) :=
  answers_agree place calls initial (initial_mirrors place) modest

/-- A freed block is the first to be taken again, and a second `free` is refused. -/
theorem refines_first_fit_reused :
    treeAnswers sramPlacement.heapPtr heapInit
      [.malloc 300, .malloc 128, .free 0x20000800, .free 0x20000800, .malloc 500] =
    some (specAnswers sramPlacement.heapPtr []
      [.malloc 300, .malloc 128, .free 0x20000800, .free 0x20000800, .malloc 500]) :=
  refines_first_fit sramPlacement _ (by decide)

/-! The tree as a function of the blocks in use. -/

/-- Trees of the right shape with the same allocated nodes are equal. -/
theorem same_leaves_same_tree {tree other : Tree} (shaped : Shaped tree) (other_shaped : Shaped other)
    (leaves : ∀ i, IsLeaf (tree i) → other i = tree i)
    (other_leaves : ∀ i, IsLeaf (other i) → tree i = other i) (i : Nat) : tree i = other i := by
  have one_way : ∀ first second : Tree, Shaped first → Shaped second →
      (∀ i, IsLeaf (first i) → second i = first i) → first i = branchNode → second i = branchNode := by
    intro first second first_shaped second_shaped agree branch
    have used : first i ≠ null := by
      rw [branch]
      exact branch_not_null
    obtain ⟨k, leaf, same | below⟩ := leaf_at_or_below first_shaped i used
    · rw [← same, branch] at leaf
      exact absurd leaf leaf_branch
    · apply second_shaped.ancestor_branch i k below
      rw [agree k leaf]
      exact leaf.1
  by_cases leaf : IsLeaf (tree i)
  · exact (leaves i leaf).symm
  · by_cases branch : tree i = branchNode
    · rw [branch, one_way tree other shaped other_shaped leaves branch]
    · have vacant : tree i = null := by
        by_contra taken
        exact leaf ⟨taken, branch⟩
      rw [vacant]
      by_contra taken
      by_cases other_branch : other i = branchNode
      · exact branch (one_way other tree other_shaped shaped other_leaves other_branch)
      · have other_leaf : IsLeaf (other i) := ⟨fun none => taken none.symm, other_branch⟩
        rw [← other_leaves i other_leaf, vacant] at taken
        exact taken rfl

theorem nodeBlock_injective (heapPtr i k : Nat) (i_inside : i < heapTreeNodeCnt)
    (k_inside : k < heapTreeNodeCnt) (same : nodeBlock heapPtr i = nodeBlock heapPtr k) : i = k := by
  obtain ⟨i_level, i_shallow⟩ := node_level i i_inside
  obtain ⟨k_level, k_shallow⟩ := node_level k k_inside
  have deep : heapTreeLevelCnt ≤ heapAddrLen := by decide
  simp only [nodeBlock, nodeAddr, Block.mk.injEq] at same
  obtain ⟨address, bytes⟩ := same
  have level : Nat.log 2 (i + 1) = Nat.log 2 (k + 1) := by
    have exponents := Nat.pow_right_injective le_rfl bytes
    omega
  have i_range := block_range heapAddrLen _ i i_level (i_shallow.trans deep)
  have k_range := block_range heapAddrLen _ k k_level (k_shallow.trans deep)
  have products : (i + 1) * blockBytes heapAddrLen i = (k + 1) * blockBytes heapAddrLen k := by
    unfold blockStart at address
    omega
  rw [bytes] at products
  have positive : 0 < blockBytes heapAddrLen k := Nat.two_pow_pos _
  have indices := Nat.eq_of_mul_eq_mul_right positive products
  omega

/-- However two runs came to the same blocks in use, they hold the same tree:
nothing of the order of the calls is left in it. -/
theorem tree_of_live (place : Placement) (s t : State)
    (s_reached : Reaches (step place) Modest (· = initial) s)
    (t_reached : Reaches (step place) Modest (· = initial) t)
    (same : ∀ block, block ∈ s.live ↔ block ∈ t.live) (i : Nat) : s.tree i = t.tree i := by
  have s_exact := run_exact place s_reached
  have t_exact := run_exact place t_reached
  have agree : ∀ s t : State, Exact place s → Exact place t →
      (∀ block ∈ s.live, block ∈ t.live) → ∀ i, IsLeaf (s.tree i) → t.tree i = s.tree i := by
    intro s t s_exact t_exact included i leaf
    obtain ⟨k, other_leaf, blocks⟩ := t_exact.tracked.live _ (included _ (s_exact.held i leaf))
    obtain rfl := nodeBlock_injective place.heapPtr i k
      (s_exact.tracked.wf.shaped.node_inside i leaf.1)
      (t_exact.tracked.wf.shaped.node_inside k other_leaf.1) blocks
    rw [s_exact.tracked.wf.address i leaf, t_exact.tracked.wf.address i other_leaf]
  exact same_leaves_same_tree s_exact.tracked.wf.shaped t_exact.tracked.wf.shaped
    (agree s t s_exact t_exact fun block => (same block).mp)
    (agree t s t_exact s_exact fun block => (same block).mpr) i

/-- One block taken straight away, and as what two other blocks left. -/
theorem tree_of_live_reordered :
    ∃ s t, exec (step sramPlacement) initial [.malloc 300, .malloc 300, .free 0x20000800] = some s ∧
      exec (step sramPlacement) initial
        [.malloc 100, .malloc 512, .malloc 90, .free 0x20000800, .free 0x20000880] = some t ∧
      ∀ i, s.tree i = t.tree i := by
  obtain ⟨s, s_executed, s_live⟩ :
      ∃ s ∈ exec (step sramPlacement) initial [.malloc 300, .malloc 300, .free 0x20000800],
        s.live.map (fun block => (block.ptr, block.bytes)) = [(0x20000a00, 512)] := by
    decide +kernel
  obtain ⟨t, t_executed, t_live⟩ :
      ∃ t ∈ exec (step sramPlacement) initial
          [.malloc 100, .malloc 512, .malloc 90, .free 0x20000800, .free 0x20000880],
        t.live.map (fun block => (block.ptr, block.bytes)) = [(0x20000a00, 512)] := by
    decide +kernel
  have begun : Reaches (step sramPlacement) Modest (· = initial) initial := .start rfl
  have injective : Function.Injective fun block : Block => (block.ptr, block.bytes) := by
    intro a b same
    cases a
    cases b
    simpa using same
  have lists : s.live = t.live := injective.list_map (s_live.trans t_live.symm)
  exact ⟨s, t, s_executed, t_executed,
    tree_of_live sramPlacement s t (exec_reaches _ begun (by decide +kernel) s_executed)
      (exec_reaches _ begun (by decide +kernel) t_executed) (by simp [lists])⟩

end MulticoreRtos.Heap
