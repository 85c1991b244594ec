import MulticoreRtos.HeapSearch
import MulticoreRtos.Transition

/-!
Runs of `malloc` and `free` from `heap_init`. A block is live from the `malloc`
that returns it to the first `free` that is passed its address, whatever that
`free` answers. Every live block is a leaf of `heap_tree`, and leaves of a
well-formed tree are disjoint blocks of the heap.
-/

namespace MulticoreRtos.Heap

open DyadicTree Transition

structure WellFormed (place : Placement) (tree : Tree) : Prop where
  inside : ∀ i, heapTreeNodeCnt ≤ i → tree i = null
  address : ∀ i, IsLeaf (tree i) → tree i = nodeAddr place.heapPtr i
  parent : ∀ i, 0 < i → tree i ≠ null → tree (up i) = branchNode
  branch : ∀ i, tree i = branchNode → tree (left i) ≠ null ∨ tree (right i) ≠ null

/-- What a well-formed tree has whatever addresses its leaves hold. -/
structure Shaped (tree : Tree) : Prop where
  inside : ∀ i, heapTreeNodeCnt ≤ i → tree i = null
  parent : ∀ i, 0 < i → tree i ≠ null → tree (up i) = branchNode
  branch : ∀ i, tree i = branchNode → tree (left i) ≠ null ∨ tree (right i) ≠ null

theorem WellFormed.shaped {place : Placement} {tree : Tree} (wf : WellFormed place tree) :
    Shaped tree := ⟨wf.inside, wf.parent, wf.branch⟩

theorem Shaped.wellFormed {place : Placement} {tree : Tree} (shaped : Shaped tree)
    (address : ∀ i, IsLeaf (tree i) → tree i = nodeAddr place.heapPtr i) : WellFormed place tree :=
  ⟨shaped.inside, address, shaped.parent, shaped.branch⟩

theorem heapInit_shaped : Shaped heapInit where
  inside _ _ := rfl
  parent _ _ taken := absurd rfl taken
  branch _ marked := absurd marked.symm branch_not_null

theorem heapInit_wellFormed (place : Placement) : WellFormed place heapInit :=
  heapInit_shaped.wellFormed fun _ leaf => absurd rfl leaf.1

theorem node_level (i : Nat) (inside : i < heapTreeNodeCnt) :
    AtLevel (Nat.log 2 (i + 1)) i ∧ Nat.log 2 (i + 1) ≤ heapTreeLevelCnt := by
  refine ⟨level_log i, Nat.lt_succ_iff.mp (Nat.log_lt_of_lt_pow (Nat.succ_ne_zero i) ?_)⟩
  rw [node_count] at inside
  simp only [heapTreeLevelCnt, heapAddrLen, heapAddrMinLen]
  omega

theorem nodeAddr_leaf (place : Placement) (i : Nat) (inside : i < heapTreeNodeCnt) :
    IsLeaf (nodeAddr place.heapPtr i) := by
  obtain ⟨at_level, shallow⟩ := node_level i inside
  have room := block_inside heapAddrLen _ i at_level (shallow.trans (by decide))
  have positive : 0 < blockBytes heapAddrLen i := Nat.two_pow_pos _
  have low := place.above_null
  have high := place.below_branch
  have size : (2 : Nat) ^ heapAddrLen = heapSize := rfl
  unfold IsLeaf nodeAddr null at *
  omega

namespace Shaped
variable {tree : Tree}

theorem node_inside (shaped : Shaped tree) (i : Nat) (taken : tree i ≠ null) :
    i < heapTreeNodeCnt := by
  by_contra outside
  exact taken (shaped.inside i (Nat.not_lt.mp outside))

theorem children_null (shaped : Shaped tree) (i : Nat) (vacant : tree i ≠ branchNode) :
    tree (left i) = null ∧ tree (right i) = null := by
  constructor
  · by_contra taken
    have marked := shaped.parent (left i) (by unfold left; omega) taken
    rw [up_left] at marked
    exact vacant marked
  · by_contra taken
    have marked := shaped.parent (right i) (by unfold right; omega) taken
    rw [up_right] at marked
    exact vacant marked

theorem nullClosed (shaped : Shaped tree) (i : Nat) : NullClosed tree i := by
  intro k _ absent
  exact shaped.children_null k (by rw [absent]; exact branch_not_null.symm)

theorem ancestor_branch (shaped : Shaped tree) (a i : Nat) (above : Ancestor a i)
    (taken : tree i ≠ null) : tree a = branchNode := by
  induction i using Nat.strongRecOn with
  | ind i ih =>
      have inner : 0 < i := Nat.zero_lt_of_lt (ancestor_lt a i above)
      have parent := shaped.parent i inner taken
      rcases (ancestor_up a i inner).mp above with rfl | higher
      · exact parent
      · exact ih (up i) (up_lt i inner) higher (by rw [parent]; exact branch_not_null)

theorem below_null (shaped : Shaped tree) (a i : Nat) (vacant : tree a ≠ branchNode)
    (above : Ancestor a i) : tree i = null := by
  by_contra taken
  exact vacant (shaped.ancestor_branch a i above taken)

theorem below_root_null (shaped : Shaped tree) (root : tree 0 ≠ branchNode) (i : Nat)
    (inner : i ≠ 0) : tree i = null :=
  shaped.below_null 0 i root (root_ancestor i (Nat.pos_of_ne_zero inner))

end Shaped

structure Block where
  ptr : Nat
  bytes : Nat
  deriving DecidableEq

def Apart (a b : Block) : Prop := a.ptr + a.bytes ≤ b.ptr ∨ b.ptr + b.bytes ≤ a.ptr

def nodeBlock (heapPtr i : Nat) : Block := ⟨nodeAddr heapPtr i, blockBytes heapAddrLen i⟩

theorem common_byte (a b : Block) (a_bytes : 0 < a.bytes) (b_bytes : 0 < b.bytes)
    (meets : ¬ Apart a b) : ∃ byte, (a.ptr ≤ byte ∧ byte < a.ptr + a.bytes) ∧
      (b.ptr ≤ byte ∧ byte < b.ptr + b.bytes) := by
  unfold Apart at meets
  refine ⟨max a.ptr b.ptr, ?_⟩
  omega

theorem Shaped.leaves_apart {tree : Tree} (shaped : Shaped tree) (heapPtr i j : Nat)
    (i_leaf : IsLeaf (tree i)) (j_leaf : IsLeaf (tree j)) (distinct : i ≠ j) :
    Apart (nodeBlock heapPtr i) (nodeBlock heapPtr j) := by
  by_contra meets
  obtain ⟨i_level, i_shallow⟩ := node_level i (shaped.node_inside i i_leaf.1)
  obtain ⟨j_level, j_shallow⟩ := node_level j (shaped.node_inside j j_leaf.1)
  have deep : heapTreeLevelCnt ≤ heapAddrLen := by decide
  obtain ⟨byte, in_i, in_j⟩ := common_byte _ _ (Nat.two_pow_pos _) (Nat.two_pow_pos _) meets
  simp only [nodeBlock, nodeAddr] at in_i in_j
  have i_byte : blockStart heapAddrLen i ≤ byte - heapPtr ∧
      byte - heapPtr < blockStart heapAddrLen i + blockBytes heapAddrLen i := by omega
  have j_byte : blockStart heapAddrLen j ≤ byte - heapPtr ∧
      byte - heapPtr < blockStart heapAddrLen j + blockBytes heapAddrLen j := by omega
  -- the shallower of the two would be an ancestor of the other, hence `BRANCH_NODE`
  have one_way : ∀ a b, IsLeaf (tree a) → IsLeaf (tree b) → a ≠ b →
      ∀ steps, Above steps a b → False := by
    intro a b a_leaf b_leaf apart steps above
    cases steps with
    | zero =>
        have same : a = b := by
          unfold Above at above
          simpa using above
        exact apart same
    | succ steps => exact a_leaf.2 (shaped.ancestor_branch a b ⟨steps, above⟩ b_leaf.1)
  rcases Nat.le_total (Nat.log 2 (i + 1)) (Nat.log 2 (j + 1)) with order | order
  · exact one_way i j i_leaf j_leaf distinct _ (overlap_above heapAddrLen _ _ i j _ i_level j_level
      order (j_shallow.trans deep) i_byte j_byte)
  · exact one_way j i j_leaf i_leaf distinct.symm _ (overlap_above heapAddrLen _ _ j i _ j_level
      i_level order (i_shallow.trans deep) j_byte i_byte)

theorem leaves_apart {place : Placement} {tree : Tree} (wf : WellFormed place tree) (i j : Nat)
    (i_leaf : IsLeaf (tree i)) (j_leaf : IsLeaf (tree j)) (distinct : i ≠ j) :
    Apart (nodeBlock place.heapPtr i) (nodeBlock place.heapPtr j) :=
  wf.shaped.leaves_apart place.heapPtr i j i_leaf j_leaf distinct

theorem nodeBlock_inside (place : Placement) (i : Nat) (inside : i < heapTreeNodeCnt) :
    place.heapPtr ≤ nodeAddr place.heapPtr i ∧
      nodeAddr place.heapPtr i + blockBytes heapAddrLen i ≤ place.heapPtr + heapSize ∧
      blockBytes heapAddrLen i ∣ nodeAddr place.heapPtr i - place.heapPtr := by
  obtain ⟨at_level, shallow⟩ := node_level i inside
  have room := block_inside heapAddrLen _ i at_level (shallow.trans (by decide))
  have aligned := block_aligned heapAddrLen _ i at_level
  have size : (2 : Nat) ^ heapAddrLen = heapSize := rfl
  unfold nodeAddr
  refine ⟨by omega, by omega, ?_⟩
  rw [Nat.add_sub_cancel_left]
  exact aligned

structure Grown (tree after : Tree) (j ptr : Nat) : Prop where
  vacant : tree j = null
  here : after j = ptr
  marks : ∀ a, Ancestor a j → after a = branchNode
  keeps : ∀ k, k ≠ j → ¬ Ancestor k j → after k = tree k

section Growth
variable {tree after : Tree} {j ptr : Nat}

theorem Grown.taken (grown : Grown tree after j ptr) (leaf : IsLeaf ptr) (k : Nat)
    (cause : tree k ≠ null ∨ k = j ∨ Ancestor k j) : after k ≠ null := by
  by_cases same : k = j
  · rw [same, grown.here]
    exact leaf.1
  · by_cases above : Ancestor k j
    · rw [grown.marks k above]
      exact branch_not_null
    · rw [grown.keeps k same above]
      exact cause.resolve_right (by tauto)

theorem Grown.shaped (grown : Grown tree after j ptr) (before : Shaped tree) (leaf : IsLeaf ptr)
    (inside : j < heapTreeNodeCnt) : Shaped after where
  inside i outside := by
    have beyond : ¬ Ancestor i j := fun above => by
      have order := ancestor_lt i j above
      omega
    rw [grown.keeps i (by omega) beyond]
    exact before.inside i outside
  parent i inner taken := by
    have up_marked : i = j ∨ Ancestor i j → after (up i) = branchNode := by
      rintro (rfl | above)
      · exact grown.marks _ ((ancestor_up _ i inner).mpr (Or.inl rfl))
      · exact grown.marks _ (ancestor_trans _ i j ((ancestor_up _ i inner).mpr (Or.inl rfl)) above)
    by_cases path : i = j ∨ Ancestor i j
    · exact up_marked path
    · rw [grown.keeps i (by tauto) (by tauto)] at taken
      have marked := before.parent i inner taken
      by_cases above : Ancestor (up i) j
      · exact grown.marks _ above
      · have apart : up i ≠ j := by
          intro same
          rw [same, grown.vacant] at marked
          exact branch_not_null marked.symm
        rw [grown.keeps _ apart above]
        exact marked
  branch i marked := by
    have other : i ≠ j := by
      rintro rfl
      rw [grown.here] at marked
      exact leaf.2 marked
    by_cases above : Ancestor i j
    · -- the next node on the way down is the new block or is marked
      obtain ⟨child, reaches, side⟩ := ancestor_child i j above
      have used := grown.taken leaf child (Or.inr reaches)
      rcases side with rfl | rfl
      · exact Or.inl used
      · exact Or.inr used
    · rw [grown.keeps i other above] at marked
      exact (before.branch i marked).imp (fun used => grown.taken leaf _ (Or.inl used))
        (fun used => grown.taken leaf _ (Or.inl used))

theorem Grown.wellFormed {place : Placement} (grown : Grown tree after j (nodeAddr place.heapPtr j))
    (before : WellFormed place tree) (inside : j < heapTreeNodeCnt) : WellFormed place after := by
  refine (grown.shaped before.shaped (nodeAddr_leaf place j inside) inside).wellFormed ?_
  intro i leaf
  by_cases same : i = j
  · rw [same, grown.here]
  · by_cases above : Ancestor i j
    · rw [grown.marks i above] at leaf
      exact absurd leaf leaf_branch
    · rw [grown.keeps i same above] at leaf ⊢
      exact before.address i leaf

theorem Grown.leaf (grown : Grown tree after j ptr) (i : Nat) (leaf : IsLeaf (tree i))
    (off : ¬ Ancestor i j) : i ≠ j ∧ after i = tree i := by
  have other : i ≠ j := by
    rintro rfl
    rw [grown.vacant] at leaf
    exact not_leaf_null leaf
  exact ⟨other, grown.keeps i other off⟩

theorem whole_grown (tree : Tree) (ptr : Nat) (vacant : tree 0 = null) :
    Grown tree (Function.update tree 0 ptr) 0 ptr where
  vacant := vacant
  here := Function.update_self _ _ _
  marks a above := absurd (ancestor_lt a 0 above) (Nat.not_lt_zero a)
  keeps _ other _ := Function.update_of_ne other _ _

end Growth

/-! What one `malloc` does to a well-formed tree. -/

theorem nextPow2_power (size : Nat) (big : 3 ≤ size) (fits : size ≤ heapSize) :
    nextPow2 size = 2 ^ (Nat.log 2 (size - 1) + 1) := by
  have small : Nat.log 2 (size - 1) < 17 := by
    apply Nat.log_lt_of_lt_pow (by omega)
    have bound : heapSize = 2 ^ 17 := rfl
    omega
  have split : (2 : Nat) ^ 31 =
      2 ^ (Nat.log 2 (size - 1) + 1) * 2 ^ (31 - Nat.log 2 (size - 1) - 1) := by
    rw [← pow_add]
    congr 1
    omega
  rw [nextPow2, if_neg (by omega), clz, Nat.shiftLeft_eq, one_mul, Nat.shiftRight_eq_div_pow, split]
  exact Nat.mul_div_cancel _ (Nat.two_pow_pos _)

theorem blockSizeFor_level (size : Nat) (fits : size ≤ heapSize) :
    ∃ target ≤ heapTreeLevelCnt, blockSizeFor size = levelBytes target ∧
      (1 ≤ target ↔ size ≤ heapSize / 2) := by
  have whole : heapSize = 131072 := rfl
  by_cases tiny : nextPow2 size < heapSizeMin
  · refine ⟨heapTreeLevelCnt, le_rfl, by rw [blockSizeFor, if_pos tiny]; rfl, ?_⟩
    have few : size ≤ 128 := by
      by_contra more
      have power := nextPow2_power size (by omega) fits
      have least : 2 ^ 7 ≤ 2 ^ (Nat.log 2 (size - 1) + 1) := by
        apply Nat.pow_le_pow_right Nat.two_pos
        have reached : 7 ≤ Nat.log 2 (size - 1) :=
          Nat.le_log_of_pow_le Nat.one_lt_two (by omega)
        omega
      have minimum : heapSizeMin = 2 ^ 7 := rfl
      omega
    have positive : 1 ≤ heapTreeLevelCnt := by decide
    simp only [positive, true_iff]
    omega
  · have big : 3 ≤ size := by
      by_contra few
      have minimum : heapSizeMin = 128 := rfl
      rw [nextPow2, if_pos (by omega)] at tiny
      omega
    have power := nextPow2_power size big fits
    have small : Nat.log 2 (size - 1) < 17 := Nat.log_lt_of_lt_pow (by omega) (by omega)
    have large : 6 ≤ Nat.log 2 (size - 1) := by
      by_contra few
      have bound : 2 ^ (Nat.log 2 (size - 1) + 1) ≤ 2 ^ 6 :=
        Nat.pow_le_pow_right Nat.two_pos (by omega)
      have minimum : heapSizeMin = 128 := rfl
      omega
    refine ⟨16 - Nat.log 2 (size - 1), ?_, ?_, ?_⟩
    · simp only [heapTreeLevelCnt, heapAddrLen, heapAddrMinLen]
      omega
    · rw [blockSizeFor, if_neg tiny, power, levelBytes]
      congr 1
      simp only [heapAddrLen]
      omega
    · have half : Nat.log 2 (size - 1) < 16 ↔ size ≤ heapSize / 2 := by
        rw [Nat.log_lt_iff_lt_pow Nat.one_lt_two (by omega)]
        omega
      omega

section Claims
variable {place : Placement} {tree marked : Tree} {target j : Nat}

theorem claimed_path (claimed : Claimed target 0 0 tree marked j) (k : Nat) :
    OnPath target j k ↔ Ancestor k j := by
  constructor
  · rintro ⟨steps, positive, _, above⟩
    exact ⟨steps - 1, by rwa [Nat.sub_add_cancel positive]⟩
  · rintro ⟨steps, above⟩
    refine ⟨steps + 1, Nat.succ_pos steps, ?_, above⟩
    by_contra higher
    -- above the root there is no node
    have top := claimed.depth.2
    have tall : 2 ^ (0 + target + 1) ≤ 2 ^ (steps + 1) :=
      Nat.pow_le_pow_right Nat.two_pos (by omega)
    unfold Above at above
    rw [Nat.div_eq_of_lt (by omega)] at above
    omega

theorem claimed_open (claimed : Claimed target 0 0 tree marked j) (root : ¬ IsLeaf (tree 0))
    (k : Nat) (path : OnPath target j k) : ¬ IsLeaf (tree k) := by
  obtain ⟨steps, positive, low, above⟩ := path
  by_cases last : steps = target
  · have same : k = 0 := by
      have top := claimed.above
      subst last
      unfold Above at above top
      omega
    rw [same]
    exact root
  · exact claimed.open_path steps k positive (by omega) above

theorem claimed_grown (claimed : Claimed target 0 0 tree marked j) (ptr : Nat) :
    Grown tree (Function.update marked j ptr) j ptr where
  vacant := claimed.vacant
  here := Function.update_self _ _ _
  marks a above := by
    rw [Function.update_of_ne (Nat.ne_of_lt (ancestor_lt a j above))]
    exact claimed.marks a ((claimed_path claimed a).mpr above)
  keeps k other off := by
    rw [Function.update_of_ne other]
    exact claimed.keeps k fun path => off ((claimed_path claimed k).mp path)

end Claims

end MulticoreRtos.Heap
