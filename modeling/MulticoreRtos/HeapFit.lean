import MulticoreRtos.HeapSafety

/-!
Which free block `malloc` takes. A node of the requested size is a candidate
when it is free and lies in no allocated block. The search finds a candidate
whenever there is one, and of all candidates the one with the lowest address.
-/

namespace MulticoreRtos.Heap

open DyadicTree

def Candidate (tree : Tree) (level k : Nat) : Prop :=
  AtLevel level k ∧ tree k = null ∧ ∀ a, Ancestor a k → ¬ IsLeaf (tree a)

/-- What a search `height` levels below `i` can see of a candidate. -/
structure Vacant (tree : Tree) (height i k : Nat) : Prop where
  above : Above height i k
  empty : tree k = null
  open_path : ∀ steps a, 1 ≤ steps → steps < height → Above steps a k → ¬ IsLeaf (tree a)

theorem Candidate.vacant {tree : Tree} {level k : Nat} (candidate : Candidate tree level k) :
    Vacant tree level 0 k where
  above := by
    obtain ⟨⟨least, most⟩, _⟩ := candidate
    rw [pow_succ] at most
    unfold Above
    exact (Nat.div_eq_of_lt_le (by omega) (by omega)).symm
  empty := candidate.2.1
  open_path steps a positive _ above :=
    candidate.2.2 a ⟨steps - 1, by rwa [Nat.sub_add_cancel positive]⟩

theorem Vacant.child {tree : Tree} {height i k : Nat} (vacant : Vacant tree (height + 1) i k) :
    ∃ child, (child = left i ∨ child = right i) ∧ ¬ IsLeaf (tree child) ∧
      Vacant (Function.update tree i branchNode) height child k := by
  obtain ⟨child, reaches, side⟩ := above_child height i k vacant.above
  have lower : i < child := by
    rcases side with rfl | rfl
    · exact left_gt i
    · exact right_gt i
  have apart : ∀ steps a, steps ≤ height → Above steps a k → a ≠ i := by
    intro steps a low above
    have under : Above (height - steps) child a := by
      unfold Above at *
      rw [above, Nat.div_div_eq_div_mul, ← pow_add, Nat.add_sub_cancel' low]
      exact reaches
    have order := above_le _ _ _ under
    omega
  refine ⟨child, side, ?_, reaches, ?_, ?_⟩
  · cases height with
    | zero =>
        have same : child = k := by unfold Above at reaches; simpa using reaches
        rw [same, vacant.empty]
        exact not_leaf_null
    | succ height => exact vacant.open_path (height + 1) child (by omega) (by omega) reaches
  · rw [Function.update_of_ne (apart 0 k (Nat.zero_le _) (above_zero k))]
    exact vacant.empty
  · intro steps a positive low above
    rw [Function.update_of_ne (apart steps a low.le above)]
    exact vacant.open_path steps a positive (by omega) above

theorem left_before (height i j k : Nat) (j_below : Above height (left i) j)
    (k_below : Above height (right i) k) : j ≤ k := by
  by_contra order
  have quotients : (k + 1) / 2 ^ height ≤ (j + 1) / 2 ^ height := Nat.div_le_div_right (by omega)
  unfold Above left right at *
  omega

theorem claim_first (height : Nat) : ∀ (level i : Nat) (tree : Tree) (k : Nat), AtLevel level i →
    Vacant tree height i k → ∃ marked j, claim height i tree = some (marked, j) ∧ j ≤ k := by
  induction height with
  | zero =>
      intro level i tree k _ vacant
      have same : i = k := by
        have above := vacant.above
        unfold Above at above
        simpa using above
      subst same
      exact ⟨tree, i, by simp [claim, vacant.empty], le_rfl⟩
  | succ height ih =>
      intro level i tree k at_level vacant
      obtain ⟨child, side, open_child, below⟩ := vacant.child
      rcases side with rfl | rfl
      · obtain ⟨marked, j, found, order⟩ :=
          ih (level + 1) (left i) _ k (level_left level i at_level) below
        exact ⟨marked, j, by simp only [claim, open_child, if_false, found], order⟩
      · cases first : if IsLeaf (tree (left i)) then none
            else claim height (left i) (Function.update tree i branchNode) with
        | none =>
            obtain ⟨marked, j, found, order⟩ :=
              ih (level + 1) (right i) _ k (level_right level i at_level) below
            exact ⟨marked, j, by simp only [claim, first, open_child, if_false, found], order⟩
        | some result =>
            obtain ⟨marked, j⟩ := result
            refine ⟨marked, j, by simp only [claim, first], ?_⟩
            by_cases leaf : IsLeaf (tree (left i))
            · simp [leaf] at first
            · simp only [leaf, if_false] at first
              have spec := claim_spec height (level + 1) (left i) _ marked j
                (level_left level i at_level) first
              exact left_before height i j k spec.above below.above

/-- A request for at most half of the heap, on a tree whose root is not one
block: the leftmost candidate is taken, or there is none. -/
theorem malloc_fits (heapPtr : Nat) {tree : Tree} (shaped : Shaped tree) (root : ¬ IsLeaf (tree 0))
    (size target : Nat) (fits : size ≤ heapSize) (bytes : blockSizeFor size = levelBytes target)
    (deep : 1 ≤ target) (shallow : target ≤ heapTreeLevelCnt) :
    (malloc heapPtr tree size = some (tree, null) ∧ ∀ k, ¬ Candidate tree target k) ∨
    ∃ j after, malloc heapPtr tree size = some (after, nodeAddr heapPtr j) ∧
      Candidate tree target j ∧ (∀ k, Candidate tree target k → j ≤ k) ∧
      Grown tree after j (nodeAddr heapPtr j) := by
  have searched := malloc_claim heapPtr size target tree (shaped.nullClosed 1) fits bytes deep shallow
  have top : AtLevel 0 0 := (level_zero 0).mpr rfl
  cases claimed : claim target 0 tree with
  | none =>
      left
      have taken := claim_none_taken target 0 tree (shaped.nullClosed 0) claimed
      refine ⟨by rw [searched, claimed, mark_branch tree 0 taken root], fun k candidate => ?_⟩
      obtain ⟨marked, j, found, _⟩ := claim_first target 0 0 tree k top candidate.vacant
      rw [claimed] at found
      cases found
  | some result =>
      right
      obtain ⟨marked, j⟩ := result
      have spec := claim_spec target 0 0 tree marked j top claimed
      have level := spec.depth
      rw [Nat.zero_add] at level
      refine ⟨j, _, by rw [searched, claimed], ⟨level, spec.vacant, fun a above => ?_⟩, ?_,
        claimed_grown spec _⟩
      · exact claimed_open spec root a ((claimed_path spec a).mpr above)
      · intro k candidate
        obtain ⟨_, first, found, order⟩ := claim_first target 0 0 tree k top candidate.vacant
        rw [claimed] at found
        cases found
        exact order

theorem first_candidate (level : Nat) : Candidate heapInit level (2 ^ level - 1) := by
  have positive := Nat.two_pow_pos level
  refine ⟨⟨?_, ?_⟩, rfl, fun _ _ leaf => leaf.1 rfl⟩
  · omega
  · rw [pow_succ]
    omega

theorem nodeAddr_first (heapPtr level : Nat) (shallow : level ≤ heapTreeLevelCnt) :
    nodeAddr heapPtr (2 ^ level - 1) = heapPtr := by
  have at_level : AtLevel level (2 ^ level - 1) := (first_candidate level).1
  have positive := Nat.two_pow_pos level
  have deep : level ≤ heapAddrLen := shallow.trans (by decide)
  rw [nodeAddr, blockStart, blockBytes_at heapAddrLen level _ at_level,
    Nat.sub_add_cancel positive, ← pow_add, Nat.add_sub_cancel' deep, Nat.sub_self, Nat.add_zero]

theorem nodeAddr_root (heapPtr : Nat) : nodeAddr heapPtr 0 = heapPtr :=
  nodeAddr_first heapPtr 0 (Nat.zero_le _)

/-- The pass over the root overwrites a root block: the answer is the empty heap's. -/
theorem malloc_over_root (heapPtr : Nat) {tree : Tree} (shaped : Shaped tree)
    (root : tree 0 ≠ branchNode) (size target : Nat) (fits : size ≤ heapSize)
    (bytes : blockSizeFor size = levelBytes target) (deep : 1 ≤ target)
    (shallow : target ≤ heapTreeLevelCnt) :
    ∃ after, malloc heapPtr tree size = some (after, heapPtr) ∧
      Grown tree after (2 ^ target - 1) heapPtr := by
  have below := shaped.below_root_null root
  have same_malloc : malloc heapPtr tree size = malloc heapPtr heapInit size := by
    obtain ⟨height, rfl⟩ : ∃ height, target = height + 1 := ⟨target - 1, by omega⟩
    have found := claim_first (height + 1) 0 0 heapInit _ ((level_zero 0).mpr rfl)
      (first_candidate (height + 1)).vacant
    rw [malloc_claim heapPtr size _ tree (shaped.nullClosed 1) fits bytes deep shallow,
      malloc_claim heapPtr size _ heapInit (heapInit_shaped.nullClosed 1) fits bytes deep shallow,
      claim_root height tree heapInit fun k inner => below k inner]
    obtain ⟨marked, j, found, _⟩ := found
    rw [found]
  rcases malloc_fits heapPtr heapInit_shaped not_leaf_null size target fits bytes deep shallow with
    ⟨_, none_left⟩ | ⟨j, after, answer, ⟨level, _⟩, leftmost, grown⟩
  · exact absurd (first_candidate target) (none_left _)
  · have first : j = 2 ^ target - 1 := by
      have order := leftmost _ (first_candidate target)
      have least := level.1
      omega
    subst first
    rw [nodeAddr_first heapPtr target shallow] at answer grown
    have root_above : Ancestor 0 (2 ^ target - 1) := by
      apply root_ancestor
      have two := Nat.pow_le_pow_right Nat.two_pos deep
      omega
    refine ⟨after, by rw [same_malloc, answer], ?_, grown.here, grown.marks, fun k other off => ?_⟩
    · exact below _ (Nat.ne_of_gt (ancestor_lt 0 _ root_above))
    · have inner : k ≠ 0 := by
        rintro rfl
        exact off root_above
      rw [grown.keeps k other off, below k inner]
      rfl

/-! A request for more than half of the heap. The climb out of a taken root has
no `i == 0` test, so the search goes on to the children of the root with the
block size of the root. -/
section Whole
variable (heapPtr : Nat) {tree : Tree} {i skip fuel : Nat}

theorem whole_free (i_small : i ≤ 2) (vacant : tree i = null) :
    mallocLoop heapPtr heapSize (fuel + 1) ⟨tree, i, heapSize, skip⟩ =
      some (Function.update tree i heapPtr, heapPtr) := by
  have inside : ¬ heapTreeNodeCnt ≤ i := by rw [node_count]; omega
  have offset : ((i + 1) * heapSize % 2 ^ 32) &&& heapAddrMax = 0 := by
    have few : i = 0 ∨ i = 1 ∨ i = 2 := by omega
    rcases few with rfl | rfl | rfl <;> decide
  simp only [mallocLoop, mallocStep, inside, if_false, if_true, vacant, ne_eq, not_true_eq_false,
    offset, Nat.add_zero]

theorem whole_taken (i_small : i ≤ 2) (taken : tree i ≠ null) :
    mallocLoop heapPtr heapSize (fuel + 1) ⟨tree, i, heapSize, skip⟩ =
      mallocLoop heapPtr heapSize fuel ⟨tree, 0, 2 * heapSize, i⟩ := by
  have inside : ¬ heapTreeNodeCnt ≤ i := by rw [node_count]; omega
  have top : traverseUp i = 0 := by unfold traverseUp; omega
  have doubled : (heapSize <<< 1) % 2 ^ 32 = 2 * heapSize := by decide
  simp only [mallocLoop, mallocStep, inside, if_false, if_true, taken, ne_eq, not_false_eq_true, top,
    doubled]

theorem whole_pass (tree : Tree) :
    mallocLoop heapPtr heapSize (fuel + 1) ⟨tree, 0, 2 * heapSize, skip⟩ =
      if 2 = skip then some (Function.update tree 0 branchNode, null)
      else if IsLeaf (tree 1) ∨ 1 = skip then
        if IsLeaf (tree 2) then some (Function.update tree 0 branchNode, null)
        else mallocLoop heapPtr heapSize fuel ⟨Function.update tree 0 branchNode, 2, heapSize, skip⟩
      else mallocLoop heapPtr heapSize fuel ⟨Function.update tree 0 branchNode, 1, heapSize, skip⟩ := by
  have root_inside : ¬ heapTreeNodeCnt ≤ 0 := by decide
  have left_inside : ¬ heapTreeNodeCnt ≤ 1 := by decide
  have right_inside : ¬ heapTreeNodeCnt ≤ 2 := by decide
  have other_size : 2 * heapSize ≠ heapSize := by decide
  have halved : (2 * heapSize) >>> 1 = heapSize := by decide
  simp only [mallocLoop, mallocStep, root_inside, if_false, other_size, Nat.mul_zero, Nat.zero_add,
    Nat.one_mod_two_pow_eq_one.mpr (show 0 < 16 by decide), show 2 % 2 ^ 16 = 2 from rfl,
    left_inside, right_inside, Function.update_of_ne (show (1 : Nat) ≠ 0 by decide),
    Function.update_of_ne (show (2 : Nat) ≠ 0 by decide), climb, if_true, halved]
  by_cases past : 2 = skip
  · simp only [past, if_true]
  · by_cases left_past : IsLeaf (tree 1) ∨ 1 = skip
    · by_cases right_leaf : IsLeaf (tree 2) <;> simp only [past, left_past, right_leaf, if_true, if_false]
    · simp only [past, left_past, if_false]

theorem whole_right (tree : Tree) :
    mallocLoop heapPtr heapSize (fuel + 2) ⟨Function.update tree 0 branchNode, 2, heapSize, skip⟩ =
      some (if tree 2 = null then
          (Function.update (Function.update tree 0 branchNode) 2 heapPtr, heapPtr)
        else (Function.update tree 0 branchNode, null)) := by
  have kept : Function.update tree 0 branchNode 2 = tree 2 :=
    Function.update_of_ne (Nat.succ_ne_zero 1) _ _
  by_cases second : tree 2 = null
  · rw [whole_free heapPtr le_rfl (by rw [kept, second]), if_pos second]
  · rw [whole_taken heapPtr le_rfl (by rwa [kept]), whole_pass, if_pos rfl, if_neg second,
      Function.update_idem]

theorem malloc_whole (size : Nat) (tree : Tree) (fits : size ≤ heapSize)
    (bytes : blockSizeFor size = heapSize) :
    malloc heapPtr tree size = some (
      if tree 0 = null then (Function.update tree 0 heapPtr, heapPtr)
      else if tree 1 = null then
        (Function.update (Function.update tree 0 branchNode) 1 heapPtr, heapPtr)
      else if tree 2 = null then
        (Function.update (Function.update tree 0 branchNode) 2 heapPtr, heapPtr)
      else (Function.update tree 0 branchNode, null)) := by
  obtain ⟨rest, fuel⟩ := Nat.exists_eq_add_of_le' (show 6 ≤ searchFuel by decide)
  have first_kept : Function.update tree 0 branchNode 1 = tree 1 :=
    Function.update_of_ne Nat.one_ne_zero _ _
  have second_kept : Function.update tree 0 branchNode 2 = tree 2 :=
    Function.update_of_ne (Nat.succ_ne_zero 1) _ _
  rw [malloc, if_neg (Nat.not_lt.mpr fits), bytes, fuel]
  by_cases vacant : tree 0 = null
  · rw [whole_free heapPtr (Nat.zero_le 2) vacant, if_pos vacant]
  · rw [whole_taken heapPtr (Nat.zero_le 2) vacant, whole_pass, if_neg (by decide), if_neg vacant]
    by_cases first_leaf : IsLeaf (tree 1)
    · rw [if_pos (Or.inl first_leaf), if_neg first_leaf.1, whole_right]
      by_cases second_leaf : IsLeaf (tree 2)
      · rw [if_pos second_leaf, if_neg second_leaf.1]
      · rw [if_neg second_leaf]
    · rw [if_neg (by simp [first_leaf])]
      by_cases first : tree 1 = null
      · rw [whole_free heapPtr (by decide) (by rw [first_kept, first]), if_pos first]
      · rw [whole_taken heapPtr (by decide) (by rwa [first_kept]), whole_pass, if_neg (by decide),
          if_pos (Or.inr rfl), if_neg first, Function.update_idem, second_kept, whole_right]
        by_cases second_leaf : IsLeaf (tree 2)
        · rw [if_pos second_leaf, if_neg second_leaf.1]
        · rw [if_neg second_leaf]

end Whole

end MulticoreRtos.Heap
