import MulticoreRtos.Heap

/-!
The search loop of `malloc` against a recursive search of the tree. `claim`
looks for the leftmost free node `height` levels below `i` and marks the path to
it. The loop started at `i` either ends where `claim` does or comes back to the
parent of `i` with the tree it started from.
-/

namespace MulticoreRtos.Heap

open DyadicTree

def claim : Nat → Nat → Tree → Option (Tree × Nat)
  | 0, i, tree => if tree i = null then some (tree, i) else none
  | height + 1, i, tree =>
      let marked := Function.update tree i branchNode
      match if IsLeaf (tree (left i)) then none else claim height (left i) marked with
      | some found => some found
      | none => if IsLeaf (tree (right i)) then none else claim height (right i) marked

/-- Passes the loop makes before it leaves the subtree of a node. -/
def passes : Nat → Nat
  | 0 => 1
  | height + 1 => 2 * passes height + 3

/-- From node `i` on, a `NULL` node has `NULL` children. -/
def NullClosed (tree : Tree) (i : Nat) : Prop :=
  ∀ k, i ≤ k → tree k = null → tree (left k) = null ∧ tree (right k) = null

theorem branch_not_null : branchNode ≠ null := by decide

theorem leaf_branch : ¬ IsLeaf branchNode := by simp [IsLeaf]

theorem not_leaf_null : ¬ IsLeaf null := by simp [IsLeaf]

theorem node_bound (level i : Nat) (at_level : AtLevel level i) (shallow : level ≤ heapTreeLevelCnt) :
    i < heapTreeNodeCnt := by
  have bound := level_bound level 10 i at_level shallow
  simp only [heapTreeNodeCnt, heapTreeLevelCnt, heapAddrLen, heapAddrMinLen]
  omega

theorem children_bound (level i : Nat) (at_level : AtLevel level i)
    (inner : level < heapTreeLevelCnt) :
    left i < heapTreeNodeCnt ∧ right i < heapTreeNodeCnt :=
  ⟨node_bound _ _ (level_left level i at_level) inner,
    node_bound _ _ (level_right level i at_level) inner⟩

theorem node_count : heapTreeNodeCnt = 2047 := rfl

theorem index_left (i : Nat) (inside : left i < heapTreeNodeCnt) :
    (2 * i + 1) % 2 ^ 16 = left i := by
  rw [node_count] at inside
  unfold left at *
  omega

theorem index_right (i : Nat) (inside : right i < heapTreeNodeCnt) :
    (2 * i + 2) % 2 ^ 16 = right i := by
  rw [node_count] at inside
  unfold right at *
  omega

theorem left_ne (i : Nat) : left i ≠ i := by unfold left; omega

theorem right_ne (i : Nat) : right i ≠ i := by unfold right; omega

def nodeAddr (heapPtr i : Nat) : Nat := heapPtr + blockStart heapAddrLen i

def levelBytes (level : Nat) : Nat := 2 ^ (heapAddrLen - level)

theorem levelBytes_half (level : Nat) (inner : level < heapTreeLevelCnt) :
    levelBytes level >>> 1 = levelBytes (level + 1) := by
  have split : heapAddrLen - level = (heapAddrLen - (level + 1)) + 1 := by
    simp only [heapTreeLevelCnt, heapAddrLen, heapAddrMinLen] at *
    omega
  rw [levelBytes, split, pow_succ, Nat.shiftRight_eq_div_pow, pow_one,
    Nat.mul_div_cancel _ Nat.two_pos, levelBytes]

theorem levelBytes_double (level : Nat) (shallow : level + 1 ≤ heapTreeLevelCnt) :
    (levelBytes (level + 1) <<< 1) % 2 ^ 32 = levelBytes level := by
  have split : heapAddrLen - level = (heapAddrLen - (level + 1)) + 1 := by
    simp only [heapTreeLevelCnt, heapAddrLen, heapAddrMinLen] at *
    omega
  have small : levelBytes level < 2 ^ 32 :=
    Nat.pow_lt_pow_right Nat.one_lt_two (by simp only [heapAddrLen]; omega)
  rw [Nat.shiftLeft_eq, pow_one, levelBytes, ← pow_succ, ← split]
  exact Nat.mod_eq_of_lt small

theorem levelBytes_ne (upper lower : Nat) (order : upper < lower) (shallow : lower ≤ heapTreeLevelCnt) :
    levelBytes upper ≠ levelBytes lower := by
  apply Nat.ne_of_gt
  apply Nat.pow_lt_pow_right Nat.one_lt_two
  simp only [heapTreeLevelCnt, heapAddrLen, heapAddrMinLen] at *
  omega

theorem masked_offset (level i : Nat) (at_level : AtLevel level i)
    (shallow : level ≤ heapTreeLevelCnt) :
    ((i + 1) * levelBytes level % 2 ^ 32) &&& heapAddrMax = blockStart heapAddrLen i := by
  have deep : level ≤ heapAddrLen := shallow.trans (by decide)
  have range := block_range heapAddrLen level i at_level deep
  have bytes : blockBytes heapAddrLen i = levelBytes level :=
    blockBytes_at heapAddrLen level i at_level
  have positive : 0 < levelBytes level := Nat.two_pow_pos _
  have grouped : (i + 2) * levelBytes level = (i + 1) * levelBytes level + levelBytes level := by
    ring
  have size : 2 ^ heapAddrLen = 131072 := rfl
  rw [bytes] at range
  have small : (i + 1) * levelBytes level < 2 ^ 32 := by omega
  rw [Nat.mod_eq_of_lt small, ← block_masked heapAddrLen level i at_level deep, bytes]
  exact Nat.and_two_pow_sub_one_eq_mod _ 17

section Passes
variable (heapPtr : Nat) {tree : Tree} {i skip fuel level target : Nat}

theorem pass_taken (at_level : AtLevel target i) (shallow : target ≤ heapTreeLevelCnt)
    (taken : tree i ≠ null) :
    mallocLoop heapPtr (levelBytes target) (fuel + 1) ⟨tree, i, levelBytes target, skip⟩ =
      mallocLoop heapPtr (levelBytes target) fuel
        ⟨tree, up i, (levelBytes target <<< 1) % 2 ^ 32, i⟩ := by
  have inside := node_bound target i at_level shallow
  simp only [mallocLoop, mallocStep, Nat.not_le.mpr inside, if_false, if_true, taken,
    ne_eq, not_false_eq_true]
  rfl

theorem pass_free (at_level : AtLevel target i) (shallow : target ≤ heapTreeLevelCnt)
    (free : tree i = null) :
    mallocLoop heapPtr (levelBytes target) (fuel + 1) ⟨tree, i, levelBytes target, skip⟩ =
      some (Function.update tree i (nodeAddr heapPtr i), nodeAddr heapPtr i) := by
  have inside := node_bound target i at_level shallow
  simp only [mallocLoop, mallocStep, Nat.not_le.mpr inside, if_false, if_true, free,
    ne_eq, not_true_eq_false, masked_offset target i at_level shallow, nodeAddr]

theorem pass_left (at_level : AtLevel level i) (order : level < target)
    (shallow : target ≤ heapTreeLevelCnt) (fresh : skip ≤ i) (open_left : ¬ IsLeaf (tree (left i))) :
    mallocLoop heapPtr (levelBytes target) (fuel + 1) ⟨tree, i, levelBytes level, skip⟩ =
      mallocLoop heapPtr (levelBytes target) fuel
        ⟨Function.update tree i branchNode, left i, levelBytes (level + 1), skip⟩ := by
  have inner : level < heapTreeLevelCnt := order.trans_le shallow
  have inside := node_bound level i at_level inner.le
  obtain ⟨left_inside, right_inside⟩ := children_bound level i at_level inner
  have not_right : right i ≠ skip := by unfold right; omega
  have not_left : left i ≠ skip := by unfold left; omega
  simp only [mallocLoop, mallocStep, Nat.not_le.mpr inside, if_false,
    levelBytes_ne level target order shallow, index_left i left_inside, index_right i right_inside,
    not_right, Nat.not_le.mpr left_inside, not_left, or_false,
    Function.update_of_ne (left_ne i), open_left, levelBytes_half level inner]

theorem pass_right (at_level : AtLevel level i) (order : level < target)
    (shallow : target ≤ heapTreeLevelCnt) (not_right : skip ≠ right i)
    (past_left : IsLeaf (tree (left i)) ∨ skip = left i) (open_right : ¬ IsLeaf (tree (right i))) :
    mallocLoop heapPtr (levelBytes target) (fuel + 1) ⟨tree, i, levelBytes level, skip⟩ =
      mallocLoop heapPtr (levelBytes target) fuel
        ⟨Function.update tree i branchNode, right i, levelBytes (level + 1), skip⟩ := by
  have inner : level < heapTreeLevelCnt := order.trans_le shallow
  have inside := node_bound level i at_level inner.le
  obtain ⟨left_inside, right_inside⟩ := children_bound level i at_level inner
  have past : IsLeaf (tree (left i)) ∨ left i = skip := past_left.imp_right Eq.symm
  simp only [mallocLoop, mallocStep, Nat.not_le.mpr inside, if_false,
    levelBytes_ne level target order shallow, index_left i left_inside, index_right i right_inside,
    not_right.symm, Nat.not_le.mpr left_inside, Nat.not_le.mpr right_inside, past, if_true,
    Function.update_of_ne (left_ne i), Function.update_of_ne (right_ne i), open_right,
    levelBytes_half level inner]

theorem pass_climb (at_level : AtLevel level i) (order : level < target)
    (shallow : target ≤ heapTreeLevelCnt)
    (exhausted : skip = right i ∨
      (skip ≠ right i ∧ (IsLeaf (tree (left i)) ∨ skip = left i) ∧ IsLeaf (tree (right i)))) :
    mallocLoop heapPtr (levelBytes target) (fuel + 1) ⟨tree, i, levelBytes level, skip⟩ =
      if i = 0 then some (Function.update tree i branchNode, null)
      else mallocLoop heapPtr (levelBytes target) fuel
        ⟨Function.update tree i branchNode, up i, (levelBytes level <<< 1) % 2 ^ 32, i⟩ := by
  have inner : level < heapTreeLevelCnt := order.trans_le shallow
  have inside := node_bound level i at_level inner.le
  obtain ⟨left_inside, right_inside⟩ := children_bound level i at_level inner
  rcases exhausted with done | ⟨not_right, past_left, leaf_right⟩
  · simp only [mallocLoop, mallocStep, Nat.not_le.mpr inside, if_false,
      levelBytes_ne level target order shallow, index_right i right_inside, done, if_true, climb]
    by_cases root : i = 0 <;> simp [root, up, traverseUp]
  · have past : IsLeaf (tree (left i)) ∨ left i = skip := past_left.imp_right Eq.symm
    simp only [mallocLoop, mallocStep, Nat.not_le.mpr inside, if_false,
      levelBytes_ne level target order shallow, index_left i left_inside,
      index_right i right_inside, not_right.symm, Nat.not_le.mpr left_inside,
      Nat.not_le.mpr right_inside, past, if_true, Function.update_of_ne (left_ne i),
      Function.update_of_ne (right_ne i), leaf_right, climb]
    by_cases root : i = 0 <;> simp [root, up, traverseUp]

end Passes

theorem NullClosed.mark {tree : Tree} {i child : Nat} (closed : NullClosed tree i)
    (below : i < child) : NullClosed (Function.update tree i branchNode) child := by
  intro k reached absent
  have apart : k ≠ i := by omega
  rw [Function.update_of_ne apart] at absent
  obtain ⟨left_null, right_null⟩ := closed k (by omega) absent
  constructor
  · rw [Function.update_of_ne (by unfold left; omega)]
    exact left_null
  · rw [Function.update_of_ne (by unfold right; omega)]
    exact right_null

theorem left_gt (i : Nat) : i < left i := by unfold left; omega

theorem right_gt (i : Nat) : i < right i := by unfold right; omega

/-- A free node has free descendants, so the search below it succeeds. -/
theorem claim_of_null (height i : Nat) (tree : Tree) (closed : NullClosed tree i)
    (absent : tree i = null) : claim height i tree ≠ none := by
  induction height generalizing i tree with
  | zero => simp [claim, absent]
  | succ height ih =>
      have left_null := (closed i le_rfl absent).1
      have found := ih (left i) (Function.update tree i branchNode)
        (closed.mark (left_gt i)) (by rw [Function.update_of_ne (left_ne i)]; exact left_null)
      simp only [claim, left_null, not_leaf_null, if_false]
      cases searched : claim height (left i) (Function.update tree i branchNode) with
      | none => exact absurd searched found
      | some result => simp

theorem claim_none_taken (height i : Nat) (tree : Tree) (closed : NullClosed tree i)
    (failed : claim height i tree = none) : tree i ≠ null :=
  fun absent => claim_of_null height i tree closed absent failed

theorem mark_branch (tree : Tree) (i : Nat) (taken : tree i ≠ null) (open_node : ¬ IsLeaf (tree i)) :
    Function.update tree i branchNode = tree := by
  have branch : tree i = branchNode := by
    by_contra other
    exact open_node ⟨taken, other⟩
  rw [← branch, Function.update_eq_self]

/-- What the loop does from node `i` on, in terms of `claim`. -/
def Explores (heapPtr target level height i : Nat) (tree : Tree) (skip : Nat) : Prop :=
  ∃ n ≤ passes height, ∀ fuel,
    mallocLoop heapPtr (levelBytes target) (fuel + n) ⟨tree, i, levelBytes level, skip⟩ =
      match claim height i tree with
      | some (marked, j) =>
          some (Function.update marked j (nodeAddr heapPtr j), nodeAddr heapPtr j)
      | none =>
          if i = 0 then some (tree, null)
          else mallocLoop heapPtr (levelBytes target) fuel
            ⟨tree, up i, (levelBytes level <<< 1) % 2 ^ 32, i⟩

theorem explore_right (heapPtr target level height i : Nat) (tree : Tree) (skip : Nat)
    (depth : level + (height + 1) = target) (shallow : target ≤ heapTreeLevelCnt)
    (at_level : AtLevel level i) (open_node : tree i = branchNode)
    (not_right : skip ≠ right i) (early : skip ≤ right i)
    (past_left : IsLeaf (tree (left i)) ∨ skip = left i)
    (right_ih : ∀ skip, skip ≤ right i → ¬ IsLeaf (tree (right i)) →
      Explores heapPtr target (level + 1) height (right i) tree skip) :
    ∃ n ≤ passes height + 2, ∀ fuel,
      mallocLoop heapPtr (levelBytes target) (fuel + n) ⟨tree, i, levelBytes level, skip⟩ =
        match if IsLeaf (tree (right i)) then none else claim height (right i) tree with
        | some (marked, j) =>
            some (Function.update marked j (nodeAddr heapPtr j), nodeAddr heapPtr j)
        | none =>
            if i = 0 then some (tree, null)
            else mallocLoop heapPtr (levelBytes target) fuel
              ⟨tree, up i, (levelBytes level <<< 1) % 2 ^ 32, i⟩ := by
  have order : level < target := by omega
  have unmarked : Function.update tree i branchNode = tree := by
    rw [← open_node, Function.update_eq_self]
  by_cases leaf : IsLeaf (tree (right i))
  · refine ⟨1, by omega, fun fuel => ?_⟩
    rw [pass_climb heapPtr at_level order shallow (Or.inr ⟨not_right, past_left, leaf⟩)]
    simp [leaf, unmarked]
  · obtain ⟨n, bound, visited⟩ := right_ih skip early leaf
    refine ⟨n + 2, by omega, fun fuel => ?_⟩
    rw [show fuel + (n + 2) = fuel + 1 + n + 1 by omega,
      pass_right heapPtr at_level order shallow not_right past_left leaf, unmarked,
      visited (fuel + 1)]
    simp only [leaf, if_false]
    cases claim height (right i) tree with
    | some found => rfl
    | none =>
        have inner : right i ≠ 0 := by unfold right; omega
        simp only [inner, if_false, up_right]
        rw [levelBytes_double level (by omega),
          pass_climb heapPtr at_level order shallow (Or.inl rfl), unmarked]

theorem explore (heapPtr target height : Nat) :
    ∀ (level i : Nat) (tree : Tree) (skip : Nat), level + height = target →
      1 ≤ target → target ≤ heapTreeLevelCnt → AtLevel level i → NullClosed tree i →
      skip ≤ i → (height ≠ 0 → ¬ IsLeaf (tree i)) →
      Explores heapPtr target level height i tree skip := by
  induction height with
  | zero =>
      intro level i tree skip depth deep shallow at_level closed early _
      -- the node has the right size: taken, the search climbs; free, it is claimed
      obtain rfl : level = target := by omega
      have inner : i ≠ 0 := by
        rintro rfl
        have least := at_level.1
        have power := Nat.pow_le_pow_right Nat.two_pos deep
        omega
      refine ⟨1, le_rfl, fun fuel => ?_⟩
      by_cases absent : tree i = null
      · rw [pass_free heapPtr at_level shallow absent]
        simp [claim, absent]
      · rw [pass_taken heapPtr at_level shallow absent]
        simp [claim, absent, inner]
  | succ height ih =>
      intro level i tree skip depth deep shallow at_level closed early open_node
      have order : level < target := by omega
      have open_node := open_node (Nat.succ_ne_zero height)
      have left_level := level_left level i at_level
      have right_level := level_right level i at_level
      have left_later := left_gt i
      have right_later := right_gt i
      have siblings : left i < right i := by unfold left right; omega
      by_cases leaf : IsLeaf (tree (left i))
      · have taken : tree i ≠ null := fun absent => leaf.1 (closed i le_rfl absent).1
        -- the left child is an allocated block, so the node was split before
        have branch : tree i = branchNode := by
          by_contra other
          exact open_node ⟨taken, other⟩
        have unmarked := mark_branch tree i taken open_node
        obtain ⟨n, bound, visited⟩ := explore_right heapPtr target level height i tree skip depth
          shallow at_level branch (by omega) (by omega) (Or.inl leaf)
          fun skip early right_open => ih (level + 1) (right i) tree skip (by omega) deep shallow
            right_level (fun k reached => closed k (by omega)) early fun _ => right_open
        refine ⟨n, by simp only [passes]; omega, fun fuel => ?_⟩
        rw [visited fuel]
        simp [claim, leaf, unmarked]
      · -- down left; after a failure the climb comes back with `skip = left i`
        have marked_closed := closed.mark (left_gt i)
        have left_same : Function.update tree i branchNode (left i) = tree (left i) :=
          Function.update_of_ne (left_ne i) _ _
        have right_same : Function.update tree i branchNode (right i) = tree (right i) :=
          Function.update_of_ne (right_ne i) _ _
        obtain ⟨n, n_bound, left_visited⟩ := ih (level + 1) (left i)
          (Function.update tree i branchNode) skip (by omega) deep shallow left_level
          marked_closed (by omega) fun _ => by rw [left_same]; exact leaf
        obtain ⟨m, m_bound, right_visited⟩ := explore_right heapPtr target level height i
          (Function.update tree i branchNode) (left i) depth shallow at_level
          (Function.update_self i branchNode tree) (by omega) (by omega) (Or.inr rfl)
          fun skip early right_open => ih (level + 1) (right i) _ skip (by omega) deep shallow
            right_level (closed.mark right_later) early fun _ => right_open
        refine ⟨n + m + 1, by simp only [passes]; omega, fun fuel => ?_⟩
        rw [show fuel + (n + m + 1) = fuel + m + n + 1 by omega,
          pass_left heapPtr at_level order shallow early leaf, left_visited (fuel + m)]
        have inner : left i ≠ 0 := by omega
        simp only [claim, leaf, if_false]
        cases searched : claim height (left i) (Function.update tree i branchNode) with
        | some found => rfl
        | none =>
            simp only [inner, if_false, up_left]
            rw [levelBytes_double level (by omega), right_visited fuel, right_same]
            cases again : if IsLeaf (tree (right i)) then none
                else claim height (right i) (Function.update tree i branchNode) with
            | some found => rfl
            | none =>
                have failed : claim (height + 1) i tree = none := by
                  simp only [claim, leaf, if_false, searched, again]
                have taken := claim_none_taken (height + 1) i tree closed failed
                rw [mark_branch tree i taken open_node]

def OnPath (height j k : Nat) : Prop := ∃ steps, 1 ≤ steps ∧ steps ≤ height ∧ Above steps k j

structure Claimed (height level i : Nat) (tree marked : Tree) (j : Nat) : Prop where
  depth : AtLevel (level + height) j
  above : Above height i j
  vacant : tree j = null
  marks : ∀ k, OnPath height j k → marked k = branchNode
  keeps : ∀ k, ¬ OnPath height j k → marked k = tree k
  open_path : ∀ steps k, 1 ≤ steps → steps < height → Above steps k j → ¬ IsLeaf (tree k)

theorem Claimed.lift {height level i child : Nat} {tree marked : Tree} {j : Nat}
    (inner : 0 < child) (parent : up child = i) (open_child : ¬ IsLeaf (tree child))
    (claimed : Claimed height (level + 1) child (Function.update tree i branchNode) marked j) :
    Claimed (height + 1) level i tree marked j := by
  have below : i < child := by rw [← parent]; exact up_lt child inner
  have top : Above (height + 1) i j := by
    have climbed := above_trans height 1 i child j claimed.above
      ((above_succ 0 i child inner).mpr (by rw [parent]; exact above_zero i))
    exact climbed
  -- `i` is above `child`, so no node of the lower path is `i`
  have apart : ∀ steps k, steps ≤ height → Above steps k j → k ≠ i := by
    rintro steps k low above rfl
    have child_above : Above (height - steps) child k := by
      have reached := claimed.above
      unfold Above at *
      rw [above, Nat.div_div_eq_div_mul, ← pow_add, Nat.add_sub_cancel' low]
      exact reached
    have order := above_le _ _ _ child_above
    omega
  refine ⟨?_, top, ?_, ?_, ?_, ?_⟩
  · have depth := claimed.depth
    rwa [Nat.add_right_comm, Nat.add_assoc] at depth
  · have vacant := claimed.vacant
    rwa [Function.update_of_ne (apart 0 j (Nat.zero_le _) (above_zero j))] at vacant
  · rintro k ⟨steps, positive, low, above⟩
    by_cases last : steps = height + 1
    · have same : k = i := by
        subst last
        unfold Above at above top
        omega
      by_cases deeper : OnPath height j k
      · exact claimed.marks k deeper
      · rw [claimed.keeps k deeper, same, Function.update_self]
    · exact claimed.marks k ⟨steps, positive, by omega, above⟩
  · intro k off
    have off_lower : ¬ OnPath height j k := by
      rintro ⟨steps, positive, low, above⟩
      exact off ⟨steps, positive, by omega, above⟩
    have other : k ≠ i := by
      rintro rfl
      exact off ⟨height + 1, by omega, le_rfl, top⟩
    rw [claimed.keeps k off_lower, Function.update_of_ne other]
  · intro steps k positive low above
    by_cases last : steps = height
    · have same : k = child := by
        have reached := claimed.above
        subst last
        unfold Above at above reached
        omega
      rw [same]
      exact open_child
    · have opened := claimed.open_path steps k positive (by omega) above
      rwa [Function.update_of_ne (apart steps k (by omega) above)] at opened

theorem claim_spec (height : Nat) :
    ∀ (level i : Nat) (tree marked : Tree) (j : Nat), AtLevel level i →
      claim height i tree = some (marked, j) → Claimed height level i tree marked j := by
  induction height with
  | zero =>
      intro level i tree marked j at_level found
      by_cases absent : tree i = null
      · simp only [claim, absent, if_true, Option.some.injEq, Prod.mk.injEq] at found
        obtain ⟨rfl, rfl⟩ := found
        refine ⟨at_level, above_zero _, absent, ?_, fun _ _ => rfl, ?_⟩
        · rintro k ⟨steps, positive, low, _⟩
          omega
        · intro steps k positive low
          omega
      · simp [claim, absent] at found
  | succ height ih =>
      intro level i tree marked j at_level found
      simp only [claim] at found
      cases first : if IsLeaf (tree (left i)) then none
          else claim height (left i) (Function.update tree i branchNode) with
      | some result =>
          rw [first] at found
          cases found
          by_cases leaf : IsLeaf (tree (left i))
          · simp [leaf] at first
          · simp only [leaf, if_false] at first
            exact (ih (level + 1) (left i) _ _ _ (level_left level i at_level) first).lift
              (by unfold left; omega) (up_left i) leaf
      | none =>
          rw [first] at found
          by_cases leaf : IsLeaf (tree (right i))
          · simp [leaf] at found
          · simp only [leaf, if_false] at found
            exact (ih (level + 1) (right i) _ _ _ (level_right level i at_level) found).lift
              (by unfold right; omega) (up_right i) leaf

/-- The first pass writes `BRANCH_NODE` into the root whatever the root holds. -/
theorem claim_root (height : Nat) (tree other : Tree)
    (same : ∀ k, k ≠ 0 → tree k = other k) : claim (height + 1) 0 tree = claim (height + 1) 0 other := by
  have marked : Function.update tree 0 branchNode = Function.update other 0 branchNode := by
    funext k
    by_cases root : k = 0
    · simp [root]
    · rw [Function.update_of_ne root, Function.update_of_ne root, same k root]
  simp only [claim, marked, same (left 0) (left_ne 0), same (right 0) (right_ne 0)]

theorem loop_root (heapPtr target fuel : Nat) (tree : Tree) (deep : 1 ≤ target)
    (shallow : target ≤ heapTreeLevelCnt) :
    mallocLoop heapPtr (levelBytes target) (fuel + 1) ⟨tree, 0, levelBytes 0, 0⟩ =
      mallocLoop heapPtr (levelBytes target) (fuel + 1)
        ⟨Function.update tree 0 branchNode, 0, levelBytes 0, 0⟩ := by
  simp only [mallocLoop, mallocStep, levelBytes_ne 0 target deep shallow, if_false,
    Function.update_idem, climb]

theorem malloc_claim (heapPtr size target : Nat) (tree : Tree) (closed : NullClosed tree 1)
    (fits : size ≤ heapSize) (bytes : blockSizeFor size = levelBytes target) (deep : 1 ≤ target)
    (shallow : target ≤ heapTreeLevelCnt) :
    malloc heapPtr tree size =
      match claim target 0 tree with
      | some (marked, j) =>
          some (Function.update marked j (nodeAddr heapPtr j), nodeAddr heapPtr j)
      | none => some (Function.update tree 0 branchNode, null) := by
  have marked_closed : NullClosed (Function.update tree 0 branchNode) 0 := by
    intro k _ absent
    have inner : k ≠ 0 := by
      rintro rfl
      exact branch_not_null (by rwa [Function.update_self] at absent)
    rw [Function.update_of_ne inner] at absent
    rw [Function.update_of_ne (by unfold left; omega), Function.update_of_ne (by unfold right; omega)]
    exact closed k (by omega) absent
  obtain ⟨n, bound, visited⟩ := explore heapPtr target target 0 0
    (Function.update tree 0 branchNode) 0 (Nat.zero_add target) deep shallow
    ((level_zero 0).mpr rfl) marked_closed le_rfl
    (fun _ => by rw [Function.update_self]; exact leaf_branch)
  have enough : ∀ height ≤ heapTreeLevelCnt, passes height < searchFuel := by decide
  have fuel : searchFuel = (searchFuel - n - 1) + n + 1 := by
    have least := enough target shallow
    omega
  obtain ⟨height, rfl⟩ : ∃ height, target = height + 1 := ⟨target - 1, by omega⟩
  rw [malloc, if_neg (Nat.not_lt.mpr fits), bytes, fuel, show heapSize = levelBytes 0 from rfl,
    loop_root heapPtr (height + 1) _ tree deep shallow, Nat.add_right_comm, visited,
    claim_root height (Function.update tree 0 branchNode) tree
      (fun k inner => Function.update_of_ne inner _ _)]
  rfl

end MulticoreRtos.Heap
