import MulticoreRtos.HeapExact

/-!
`free` of the block that `malloc` has just handed out, in any reachable state.
After a request for more than half of the heap two allocated nodes may hold the
address of the heap itself, and then the order of the search decides. A small
block taken while the root is one block is not undone: the root's mark is gone.
-/

namespace MulticoreRtos.Heap

open DyadicTree Transition

/-- An allocated node holds its own address or that of the heap. -/
def Addressed (heapPtr : Nat) (tree : Tree) : Prop :=
  ∀ i, IsLeaf (tree i) → tree i = nodeAddr heapPtr i ∨ tree i = heapPtr

theorem Grown.addressed {heapPtr j ptr : Nat} {tree after : Tree} (grown : Grown tree after j ptr)
    (before : Addressed heapPtr tree) (address : ptr = nodeAddr heapPtr j ∨ ptr = heapPtr) :
    Addressed heapPtr after := by
  intro i leaf
  by_cases same : i = j
  · rw [same, grown.here]
    exact address
  · by_cases above : Ancestor i j
    · rw [grown.marks i above] at leaf
      exact absurd leaf leaf_branch
    · rw [grown.keeps i same above] at leaf ⊢
      exact before i leaf

theorem Released.addressed {heapPtr i : Nat} {tree after : Tree} (released : Released tree after i)
    (before : Addressed heapPtr tree) : Addressed heapPtr after := by
  intro k leaf
  have same := (released.taken k leaf.1).1
  rw [same] at leaf ⊢
  exact before k leaf

theorem addressed_step (place : Placement) (s : State) (call : Call) (after : State)
    (before : Shaped s.tree ∧ Addressed place.heapPtr s.tree)
    (stepped : step place s call = some after) :
    Shaped after.tree ∧ Addressed place.heapPtr after.tree := by
  obtain ⟨shaped, addressed⟩ := before
  refine ⟨shaped_step place s call after shaped stepped, ?_⟩
  cases call with
  | malloc size =>
      rcases malloc_step place s shaped size with failed | ⟨tree, j, ptr, taken, served⟩
      · obtain rfl := Option.some.inj (failed.symm.trans stepped)
        exact addressed
      · obtain rfl := Option.some.inj (served.symm.trans stepped)
        exact taken.grown.addressed addressed taken.address
  | free ptr =>
      rcases free_step place s shaped ptr with ⟨refused, _⟩ | ⟨i, tree, freed, _, _, _, _, released⟩
      · obtain rfl := Option.some.inj (refused.symm.trans stepped)
        exact addressed
      · obtain rfl := Option.some.inj (freed.symm.trans stepped)
        exact released.addressed addressed

theorem run_addressed (place : Placement) {s : State}
    (reached : Reaches (step place) Transition.free (· = initial) s) :
    Shaped s.tree ∧ Addressed place.heapPtr s.tree :=
  reached.invariant (fun s => Shaped s.tree ∧ Addressed place.heapPtr s.tree)
    (by rintro _ rfl; exact ⟨heapInit_shaped, fun _ leaf => absurd rfl leaf.1⟩)
    fun before call after holds _ => addressed_step place before call after holds

/-! The new block is found -/

section Found
variable {heapPtr level j : Nat} {tree after : Tree}

theorem first_of_level (at_level : AtLevel level j) (shallow : level ≤ heapTreeLevelCnt)
    (first : nodeAddr heapPtr j = heapPtr) : j + 1 = 2 ^ level := by
  have deep : level ≤ heapAddrLen := shallow.trans (by decide)
  have start : blockStart heapAddrLen j = 0 := by
    unfold nodeAddr at first
    omega
  rw [blockStart, blockBytes_at heapAddrLen level j at_level, Nat.sub_eq_zero_iff_le,
    ← Nat.add_sub_cancel' deep, pow_add, Nat.add_sub_cancel_left] at start
  exact le_antisymm (Nat.le_of_mul_le_mul_right start (Nat.two_pow_pos _)) at_level.1

/-- The search goes left first, so it meets the first node of a level before any
other node with the same value. -/
theorem locate_leftmost {ptr : Nat} (here : tree j = ptr) (leaf : IsLeaf ptr)
    (marked : ∀ a, Ancestor a j → tree a = branchNode) (steps : Nat) :
    ∀ height i, steps ≤ height → (i + 1) * 2 ^ steps = j + 1 →
      locate tree ptr height i = some j := by
  induction steps with
  | zero =>
      intro height i _ same
      obtain rfl : i = j := by simpa using same
      cases height <;> simp [locate, here]
  | succ steps ih =>
      intro height i low same
      obtain ⟨height, rfl⟩ : ∃ h, height = h + 1 := ⟨height - 1, by omega⟩
      have above : Ancestor i j := by
        refine ⟨steps, ?_⟩
        rw [Above, ← same, Nat.mul_div_cancel _ (Nat.two_pow_pos _)]
      have next : (left i + 1) * 2 ^ steps = j + 1 := by
        rw [← same, pow_succ]
        unfold left
        ring
      have found := ih height (left i) (by omega) next
      have passed : tree i ≠ ptr := by
        rw [marked i above]
        exact leaf.2.symm
      have used : tree (left i) ≠ null := by
        cases steps with
        | zero =>
            obtain rfl : left i = j := by simpa using next
            rw [here]
            exact leaf.1
        | succ steps =>
            rw [marked (left i) ⟨steps, by rw [Above, ← next, Nat.mul_div_cancel _ (Nat.two_pow_pos _)]⟩]
            exact branch_not_null
      simp only [locate, passed, used, if_false, found]

theorem new_block_found {place : Placement} (shaped : Shaped after)
    (addressed : Addressed place.heapPtr after) (at_level : AtLevel level j) (inner : 0 < j)
    (shallow : level ≤ heapTreeLevelCnt)
    (grown : Grown tree after j (nodeAddr place.heapPtr j)) :
    findPtr after (nodeAddr place.heapPtr j) = some j := by
  have leaf := nodeAddr_leaf place j (node_bound level j at_level shallow)
  have root : after 0 = branchNode := grown.marks 0 (root_ancestor j inner)
  by_cases first : nodeAddr place.heapPtr j = place.heapPtr
  · have leftmost := first_of_level at_level shallow first
    rw [findPtr_locate, locate_leftmost grown.here leaf grown.marks level heapTreeLevelCnt 0 shallow
      (by rw [leftmost, Nat.zero_add, Nat.one_mul])]
    rfl
  · obtain ⟨i, found⟩ : ∃ i, findPtr after (nodeAddr place.heapPtr j) = some i :=
      ⟨_, findPtr_locate after _⟩
    by_cases top : i = 0
    · rcases findPtr_zero shaped _ (top ▸ found) with same | none_holds
      · exact absurd (same.symm.trans root) leaf.2
      · exact absurd grown.here (none_holds j (by rw [grown.here]; exact leaf.1))
    · have used : after 0 ≠ null := by
        rw [root]
        exact branch_not_null
      obtain ⟨holds, i_leaf⟩ := findPtr_leaf shaped used _ i found top
      have own : nodeAddr place.heapPtr i = nodeAddr place.heapPtr j := by
        rcases addressed i i_leaf with natural | start
        · exact natural.symm.trans holds
        · exact absurd (holds.symm.trans start) first
      have same : i = j := by
        by_contra distinct
        have apart := shaped.leaves_apart place.heapPtr i j i_leaf
          (by rw [grown.here]; exact leaf) distinct
        have i_bytes : 0 < blockBytes heapAddrLen i := Nat.two_pow_pos _
        have j_bytes : 0 < blockBytes heapAddrLen j := Nat.two_pow_pos _
        simp only [Apart, nodeBlock, own] at apart
        omega
      rw [found, same]

theorem free_new_block {place : Placement} (shaped : Shaped tree)
    (addressed : Addressed place.heapPtr tree) (candidate : Candidate tree level j)
    (deep : 1 ≤ level) (shallow : level ≤ heapTreeLevelCnt)
    (grown : Grown tree after j (nodeAddr place.heapPtr j)) :
    free after (nodeAddr place.heapPtr j) = some (tree, 0) := by
  have inside := node_bound level j candidate.1 shallow
  have leaf := nodeAddr_leaf place j inside
  have inner := candidate_inner deep candidate
  have after_shaped := grown.shaped shaped leaf inside
  have found := new_block_found after_shaped (grown.addressed addressed (Or.inl rfl)) candidate.1
    inner shallow grown
  have used : after 0 ≠ null := by
    rw [grown.marks 0 (root_ancestor j inner)]
    exact branch_not_null
  obtain ⟨result, freed, released⟩ := free_found after_shaped used found inner.ne'
  rw [freed, released.unique (grown.released shaped candidate.2.2)]

end Found

/-! A block taken while the root is one block -/

section OverRoot
variable {level : Nat} {tree after : Tree} {place : Placement}

theorem below_left {level : Nat} (deep : 1 ≤ level) : Above (level - 1) (left 0) (2 ^ level - 1) := by
  obtain ⟨steps, rfl⟩ : ∃ steps, level = steps + 1 := ⟨level - 1, by omega⟩
  have positive := Nat.two_pow_pos (steps + 1)
  rw [Above, Nat.sub_add_cancel positive, pow_succ, Nat.add_sub_cancel,
    Nat.mul_div_cancel_left _ (Nat.two_pow_pos steps)]
  rfl

theorem right_half_candidate (shaped : Shaped tree) (root : tree 0 ≠ branchNode) (deep : 1 ≤ level)
    (grown : Grown tree after (2 ^ level - 1) place.heapPtr) {target : Nat} (small : 1 ≤ target) :
    Candidate after target (3 * 2 ^ (target - 1) - 1) := by
  have top : AtLevel 0 0 := (level_zero 0).mpr rfl
  have positive := Nat.two_pow_pos (target - 1)
  have under : Above (target - 1) (right 0) (3 * 2 ^ (target - 1) - 1) := by
    rw [Above, Nat.sub_add_cancel (by omega), Nat.mul_div_cancel _ positive]
    rfl
  have taken := below_left deep
  have at_level := above_level _ 1 _ _ under (level_right 0 0 top)
  rw [Nat.add_sub_cancel' small] at at_level
  -- the new node is below the left child of the root, the candidate below the right one
  have apart : 3 * 2 ^ (target - 1) - 1 ≠ 2 ^ level - 1 := by
    intro same
    rw [same] at under
    exact children_apart _ _ 0 0 _ top taken under
  have not_above : ¬ Ancestor (3 * 2 ^ (target - 1) - 1) (2 ^ level - 1) := by
    rintro ⟨steps, above⟩
    exact children_apart _ _ 0 0 _ top taken (above_trans _ _ _ _ _ above under)
  refine ⟨at_level, ?_, fun a above => ?_⟩
  · rw [grown.keeps _ apart not_above, shaped.below_root_null root _ (by omega)]
  · have other : a ≠ 2 ^ level - 1 := by
      rintro rfl
      obtain ⟨steps, above⟩ := above
      exact children_apart _ _ 0 0 _ top (above_trans _ _ _ _ _ above taken) under
    by_cases marked : Ancestor a (2 ^ level - 1)
    · rw [grown.marks a marked]
      exact leaf_branch
    · have inner : a ≠ 0 := by
        rintro rfl
        have power := Nat.pow_le_pow_right Nat.two_pos deep
        exact marked (root_ancestor _ (by omega))
      rw [grown.keeps a other marked, shaped.below_root_null root a inner]
      exact not_leaf_null

theorem served_after_over_root (shaped : Shaped tree) (root : tree 0 ≠ branchNode)
    (deep : 1 ≤ level) (shallow : level ≤ heapTreeLevelCnt)
    (grown : Grown tree after (2 ^ level - 1) place.heapPtr) {size : Nat} (fits : size ≤ heapSize) :
    ∃ next ptr, malloc place.heapPtr after size = some (next, ptr) ∧ ptr ≠ null := by
  have first := (first_candidate level).1
  have inside := node_bound level _ first shallow
  have inner : 0 < 2 ^ level - 1 := by
    have power := Nat.pow_le_pow_right Nat.two_pos deep
    omega
  have found : place.heapPtr ≠ null := Nat.ne_of_gt place.above_null
  have leaf : IsLeaf place.heapPtr := by
    rw [← nodeAddr_root place.heapPtr]
    exact nodeAddr_leaf place 0 (by decide)
  have marked : after 0 = branchNode := grown.marks 0 (root_ancestor _ inner)
  obtain ⟨target, target_shallow, bytes, _⟩ := blockSizeFor_level size fits
  by_cases small : 1 ≤ target
  · have candidate := right_half_candidate shaped root deep grown small
    rcases malloc_fits place.heapPtr (grown.shaped shaped leaf inside) (by rw [marked]; exact leaf_branch)
      size target fits bytes small target_shallow with ⟨_, none_left⟩ | ⟨j, next, answer, taken, _⟩
    · exact absurd candidate (none_left _)
    · exact ⟨next, _, answer,
        (nodeAddr_leaf place j (node_bound target j taken.1 target_shallow)).1⟩
  · have whole : blockSizeFor size = heapSize := by
      rw [bytes, show target = 0 by omega]
      rfl
    have answer := malloc_whole place.heapPtr size after fits whole
    have half : Candidate after 1 2 := right_half_candidate shaped root deep grown le_rfl
    rw [if_neg (by rw [marked]; exact branch_not_null), if_pos half.2.1] at answer
    split at answer
    · exact ⟨_, _, answer, found⟩
    · exact ⟨_, _, answer, found⟩

theorem free_root (shaped : Shaped tree) (root : ¬ IsLeaf (tree 0)) {ptr answer : Nat}
    (freed : free tree ptr = some (after, answer)) : ¬ IsLeaf (after 0) := by
  rcases free_cases shaped ptr with ⟨refused, _⟩ | ⟨i, result, released_answer, _, _, _, released⟩
  · obtain ⟨rfl, _⟩ := Prod.mk.inj (Option.some.inj (refused.symm.trans freed))
    exact root
  · obtain ⟨rfl, _⟩ := Prod.mk.inj (Option.some.inj (released_answer.symm.trans freed))
    intro leaf
    rw [(released.taken 0 leaf.1).1] at leaf
    exact root leaf

end OverRoot

end MulticoreRtos.Heap
