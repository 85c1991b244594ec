import Mathlib.Algebra.BigOperators.Intervals
import MulticoreRtos.HeapExact

/-!
`heap_stats` of `os/heap.c`. Its walk goes on in the same pass with the children
of the parent after it has counted a leaf. An index in the tree is below
`HEAP_TREE_NODE_CNT`, so nothing wraps in the `int16_t` variables; the 32-bit
counters are kept modulo `2 ^ 32`.
-/

namespace MulticoreRtos.Heap

open DyadicTree Transition

structure HeapStats where
  size : Nat
  used : Nat
  free : Nat
  deriving DecidableEq

structure Walk where
  used : Nat
  i : Nat
  blockSize : Nat
  skip : Nat

inductive Pass where
  | again (walk : Walk)
  | stop (used : Nat)
  | fault

/-- The two places of the loop that climb behind an `i == 0` test. -/
def walkUp (w : Walk) : Pass :=
  if w.i = 0 then .stop w.used
  else .again ⟨w.used, traverseUp w.i, (w.blockSize <<< 1) % 2 ^ 32, w.i⟩

def visitChildren (tree : Tree) (w : Walk) : Pass :=
  let left := 2 * w.i + 1
  let right := 2 * w.i + 2
  if right = w.skip then walkUp w
  else if heapTreeNodeCnt ≤ left then .fault
  else if tree left = null ∨ left = w.skip then
    if heapTreeNodeCnt ≤ right then .fault
    else if tree right = null then walkUp w
    else .again ⟨w.used, right, w.blockSize >>> 1, w.skip⟩
  else .again ⟨w.used, left, w.blockSize >>> 1, w.skip⟩

def statsStep (tree : Tree) (w : Walk) : Pass :=
  if heapTreeNodeCnt ≤ w.i then .fault
  else if IsLeaf (tree w.i) then
    let used := (w.used + w.blockSize) % 2 ^ 32
    if w.i = 0 then .stop used
    -- no `continue`: the children tests that follow are already those of the parent
    else visitChildren tree ⟨used, traverseUp w.i, (w.blockSize <<< 1) % 2 ^ 32, w.i⟩
  else visitChildren tree w

def statsLoop (tree : Tree) : Nat → Walk → Option Nat
  | 0, _ => none
  | fuel + 1, w =>
      match statsStep tree w with
      | .again next => statsLoop tree fuel next
      | .stop used => some used
      | .fault => none

def heapStats (tree : Tree) : Option HeapStats :=
  (statsLoop tree searchFuel ⟨0, 0, heapSize, 0⟩).map fun used =>
    ⟨heapSize, used, (heapSize + 2 ^ 32 - used) % 2 ^ 32⟩

/-- The bytes in use at or below node `i` of a level, `height` levels deep. -/
def usedBelow (tree : Tree) : Nat → Nat → Nat → Nat
  | 0, level, i => if IsLeaf (tree i) then levelBytes level else 0
  | height + 1, level, i =>
      if IsLeaf (tree i) then levelBytes level
      else usedBelow tree height (level + 1) (left i) + usedBelow tree height (level + 1) (right i)

theorem levelBytes_split (level : Nat) (inner : level < heapTreeLevelCnt) :
    levelBytes level = levelBytes (level + 1) + levelBytes (level + 1) := by
  have halved := levelBytes_half level inner
  have doubled := levelBytes_double level inner
  have small : levelBytes level < 2 ^ 32 :=
    Nat.pow_lt_pow_right Nat.one_lt_two (by simp only [heapAddrLen]; omega)
  rw [Nat.shiftRight_eq_div_pow] at halved
  rw [Nat.shiftLeft_eq] at doubled
  omega

theorem usedBelow_le (tree : Tree) (height : Nat) : ∀ level i, level + height ≤ heapTreeLevelCnt →
    usedBelow tree height level i ≤ levelBytes level := by
  induction height with
  | zero =>
      intro level i _
      unfold usedBelow
      split <;> omega
  | succ height ih =>
      intro level i depth
      unfold usedBelow
      split
      · exact le_rfl
      · have in_left := ih (level + 1) (left i) (by omega)
        have in_right := ih (level + 1) (right i) (by omega)
        rw [levelBytes_split level (by omega)]
        omega

theorem usedBelow_null {tree : Tree} (shaped : Shaped tree) (height : Nat) : ∀ level i,
    tree i = null → usedBelow tree height level i = 0 := by
  induction height with
  | zero =>
      intro level i vacant
      simp [usedBelow, vacant, not_leaf_null]
  | succ height ih =>
      intro level i vacant
      obtain ⟨no_left, no_right⟩ := shaped.children_null i (by rw [vacant]; exact branch_not_null.symm)
      simp [usedBelow, vacant, not_leaf_null, ih _ _ no_left, ih _ _ no_right]

/-- The rest of a walk whose next pass has no leaf to count before the children tests. -/
def resume (tree : Tree) (fuel : Nat) (w : Walk) : Option Nat :=
  match visitChildren tree w with
  | .again next => statsLoop tree fuel next
  | .stop used => some used
  | .fault => none

def leave (tree : Tree) (fuel level used i : Nat) : Option Nat :=
  if i = 0 then some used else resume tree fuel ⟨used, up i, levelBytes (level - 1), i⟩

section Passes
variable {tree : Tree} {used i skip fuel level : Nat}

theorem loop_resume (at_level : AtLevel level i) (shallow : level ≤ heapTreeLevelCnt)
    (inner : ¬ IsLeaf (tree i)) :
    statsLoop tree (fuel + 1) ⟨used, i, levelBytes level, skip⟩ =
      resume tree fuel ⟨used, i, levelBytes level, skip⟩ := by
  have inside := node_bound level i at_level shallow
  simp only [statsLoop, statsStep, Nat.not_le.mpr inside, if_false, inner, resume]

theorem loop_leaf (at_level : AtLevel level i) (shallow : level ≤ heapTreeLevelCnt)
    (leaf : IsLeaf (tree i)) (room : used + levelBytes level ≤ heapSize) :
    statsLoop tree (fuel + 1) ⟨used, i, levelBytes level, skip⟩ =
      leave tree fuel level (used + levelBytes level) i := by
  have inside := node_bound level i at_level shallow
  have counted : (used + levelBytes level) % 2 ^ 32 = used + levelBytes level :=
    Nat.mod_eq_of_lt (room.trans_lt (by decide))
  by_cases root : i = 0
  · subst root
    simp only [statsLoop, statsStep, Nat.not_le.mpr inside, if_false, leaf, if_true, counted, leave]
  · obtain ⟨above, rfl⟩ : ∃ above, level = above + 1 := by
      refine Nat.exists_eq_succ_of_ne_zero fun top => root ?_
      exact (level_zero i).mp (top ▸ at_level)
    simp only [statsLoop, statsStep, Nat.not_le.mpr inside, if_false, leaf, if_true, counted, root,
      leave, resume, levelBytes_double above shallow, Nat.add_sub_cancel]
    rfl

theorem resume_left (at_level : AtLevel level i) (inner : level < heapTreeLevelCnt)
    (early : skip ≤ i) (open_left : tree (left i) ≠ null) :
    resume tree fuel ⟨used, i, levelBytes level, skip⟩ =
      statsLoop tree fuel ⟨used, left i, levelBytes (level + 1), skip⟩ := by
  have left_inside := (children_bound level i at_level inner).1
  have not_right : right i ≠ skip := by unfold right; omega
  have not_left : left i ≠ skip := by unfold left; omega
  unfold left right at *
  simp only [resume, visitChildren, not_right, if_false, Nat.not_le.mpr left_inside, open_left,
    not_left, or_self, levelBytes_half level inner]

theorem resume_right (at_level : AtLevel level i) (inner : level < heapTreeLevelCnt)
    (not_right : skip ≠ right i) (past_left : tree (left i) = null ∨ skip = left i)
    (open_right : tree (right i) ≠ null) :
    resume tree fuel ⟨used, i, levelBytes level, skip⟩ =
      statsLoop tree fuel ⟨used, right i, levelBytes (level + 1), skip⟩ := by
  obtain ⟨left_inside, right_inside⟩ := children_bound level i at_level inner
  have past : tree (left i) = null ∨ left i = skip := past_left.imp_right Eq.symm
  unfold left right at *
  simp only [resume, visitChildren, not_right.symm, if_false, Nat.not_le.mpr left_inside, past,
    if_true, Nat.not_le.mpr right_inside, open_right, levelBytes_half level inner]

theorem resume_up (shaped : Shaped tree) (at_level : AtLevel level i)
    (inner : level < heapTreeLevelCnt) (used_or_root : i = 0 ∨ tree i ≠ null)
    (exhausted : skip = right i ∨
      (skip ≠ right i ∧ (tree (left i) = null ∨ skip = left i) ∧ tree (right i) = null)) :
    resume tree (fuel + 1) ⟨used, i, levelBytes level, skip⟩ = leave tree fuel level used i := by
  obtain ⟨left_inside, right_inside⟩ := children_bound level i at_level inner
  have back : visitChildren tree ⟨used, i, levelBytes level, skip⟩ =
      walkUp ⟨used, i, levelBytes level, skip⟩ := by
    unfold left right at *
    rcases exhausted with done | ⟨not_right, past_left, no_right⟩
    · simp only [visitChildren, done, if_true]
    · have past := past_left.imp_right Eq.symm
      simp only [visitChildren, not_right.symm, if_false, Nat.not_le.mpr left_inside, past, if_true,
        Nat.not_le.mpr right_inside, no_right]
  by_cases root : i = 0
  · rw [resume, back]
    simp only [walkUp, root, if_true, leave]
  · obtain ⟨above, rfl⟩ : ∃ above, level = above + 1 := by
      refine Nat.exists_eq_succ_of_ne_zero fun top => root ?_
      exact (level_zero i).mp (top ▸ at_level)
    have branch := shaped.parent i (Nat.pos_of_ne_zero root) (used_or_root.resolve_left root)
    have not_leaf : ¬ IsLeaf (tree (up i)) := by
      rw [branch]
      exact leaf_branch
    simp only [resume, back, walkUp, root, if_false, leave, levelBytes_double above inner.le,
      Nat.add_sub_cancel]
    exact loop_resume (level_up above i at_level) (by omega) not_leaf

end Passes

def Counts (tree : Tree) (height level i used skip : Nat) : Prop :=
  ∃ n ≤ passes height, ∀ fuel,
    statsLoop tree (fuel + n) ⟨used, i, levelBytes level, skip⟩ =
      leave tree fuel level (used + usedBelow tree height level i) i

theorem counts_right {tree : Tree} (shaped : Shaped tree) (level height i used skip : Nat)
    (depth : level + (height + 1) = heapTreeLevelCnt) (at_level : AtLevel level i)
    (used_or_root : i = 0 ∨ tree i ≠ null) (early : skip < right i)
    (past_left : tree (left i) = null ∨ skip = left i)
    (right_ih : tree (right i) ≠ null → Counts tree height (level + 1) (right i) used skip) :
    ∃ n ≤ passes height + 1, ∀ fuel,
      resume tree (fuel + n) ⟨used, i, levelBytes level, skip⟩ =
        leave tree fuel level (used + usedBelow tree height (level + 1) (right i)) i := by
  have inner : level < heapTreeLevelCnt := by omega
  by_cases empty : tree (right i) = null
  · refine ⟨1, by omega, fun fuel => ?_⟩
    rw [resume_up shaped at_level inner used_or_root
      (Or.inr ⟨Nat.ne_of_lt early, past_left, empty⟩), usedBelow_null shaped height _ _ empty]
    rfl
  · obtain ⟨n, bound, visited⟩ := right_ih empty
    refine ⟨n + 1, by omega, fun fuel => ?_⟩
    have not_root : right i ≠ 0 := by unfold right; omega
    rw [show fuel + (n + 1) = fuel + 1 + n by omega,
      resume_right at_level inner (Nat.ne_of_lt early) past_left empty, visited (fuel + 1), leave,
      if_neg not_root, up_right, Nat.add_sub_cancel]
    exact resume_up shaped at_level inner used_or_root (Or.inl rfl)

theorem counts {tree : Tree} (shaped : Shaped tree) (height : Nat) :
    ∀ (level i used skip : Nat), level + height = heapTreeLevelCnt → AtLevel level i → skip ≤ i →
      tree i ≠ null → used + levelBytes level ≤ heapSize → Counts tree height level i used skip := by
  induction height with
  | zero =>
      intro level i used skip depth at_level early taken room
      obtain rfl : level = heapTreeLevelCnt := by omega
      have leaf : IsLeaf (tree i) := by
        refine ⟨taken, bottom_not_branch shaped i ?_⟩
        have least : 2 ^ 10 ≤ i + 1 := at_level.1
        omega
      refine ⟨1, le_rfl, fun fuel => ?_⟩
      rw [loop_leaf at_level le_rfl leaf room, usedBelow, if_pos leaf]
  | succ height ih =>
      intro level i used skip depth at_level early taken room
      have inner : level < heapTreeLevelCnt := by omega
      by_cases leaf : IsLeaf (tree i)
      · refine ⟨1, by simp only [passes]; omega, fun fuel => ?_⟩
        rw [loop_leaf at_level inner.le leaf room, usedBelow, if_pos leaf]
      · have left_level := level_left level i at_level
        have right_level := level_right level i at_level
        have left_later := left_gt i
        have siblings : left i < right i := by unfold left right; omega
        have halves := levelBytes_split level inner
        simp only [Counts, usedBelow, if_neg leaf]
        -- an empty left child is skipped; the walk comes back from any other by `skip`
        by_cases empty : tree (left i) = null
        · obtain ⟨n, bound, visited⟩ := counts_right shaped level height i used skip depth at_level
            (Or.inr taken) (by omega) (Or.inl empty)
            fun open_right => ih (level + 1) (right i) used skip (by omega) right_level (by omega)
              open_right (by omega)
          refine ⟨n + 1, by simp only [passes]; omega, fun fuel => ?_⟩
          rw [← Nat.add_assoc, loop_resume at_level inner.le leaf, visited fuel,
            usedBelow_null shaped height _ _ empty, Nat.zero_add]
        · have in_left := usedBelow_le tree height (level + 1) (left i) (by omega)
          obtain ⟨n, n_bound, left_visited⟩ :=
            ih (level + 1) (left i) used skip (by omega) left_level (by omega) empty (by omega)
          obtain ⟨m, m_bound, right_visited⟩ := counts_right shaped level height i
            (used + usedBelow tree height (level + 1) (left i)) (left i) depth at_level
            (Or.inr taken) siblings (Or.inr rfl)
            fun open_right => ih (level + 1) (right i) _ (left i) (by omega) right_level siblings.le
              open_right (by omega)
          have not_root : left i ≠ 0 := by omega
          refine ⟨m + n + 1, by simp only [passes]; omega, fun fuel => ?_⟩
          rw [show fuel + (m + n + 1) = fuel + m + n + 1 by omega,
            loop_resume at_level inner.le leaf, resume_left at_level inner early empty,
            left_visited (fuel + m), leave, if_neg not_root, up_left, Nat.add_sub_cancel,
            right_visited fuel, Nat.add_assoc]

/-- The walk of `heap_stats` ends, and each leaf is counted once. -/
theorem heapStats_used {tree : Tree} (shaped : Shaped tree) :
    heapStats tree = some ⟨heapSize, usedBelow tree heapTreeLevelCnt 0 0,
      heapSize - usedBelow tree heapTreeLevelCnt 0 0⟩ := by
  have fits := usedBelow_le tree heapTreeLevelCnt 0 0 (Nat.zero_add _).le
  have whole : levelBytes 0 = heapSize := rfl
  have root_level := (level_zero 0).mpr rfl
  have walked : statsLoop tree searchFuel ⟨0, 0, heapSize, 0⟩ =
      some (usedBelow tree heapTreeLevelCnt 0 0) := by
    by_cases empty : tree 0 = null
    · obtain ⟨no_left, no_right⟩ := shaped.children_null 0 (by rw [empty]; exact branch_not_null.symm)
      rw [usedBelow_null shaped _ _ _ empty, show searchFuel = searchFuel - 2 + 1 + 1 by decide,
        ← whole, loop_resume root_level (Nat.zero_le _) (by rw [empty]; exact not_leaf_null),
        resume_up shaped root_level (by decide) (Or.inl rfl)
          (Or.inr ⟨by decide, Or.inl no_left, no_right⟩)]
      rfl
    · obtain ⟨n, bound, visited⟩ := counts shaped heapTreeLevelCnt 0 0 0 0 (Nat.zero_add _)
        root_level le_rfl empty (by rw [whole, Nat.zero_add])
      have enough : passes heapTreeLevelCnt < searchFuel := by decide
      rw [show searchFuel = (searchFuel - n) + n by omega, ← whole, visited, Nat.zero_add]
      rfl
  rw [heapStats, walked, Option.map_some]
  have small : heapSize < 2 ^ 32 := by decide
  rw [whole] at fits
  congr 2
  omega

def leavesBelow (tree : Tree) : Nat → Nat → List Nat
  | 0, i => if IsLeaf (tree i) then [i] else []
  | height + 1, i =>
      if IsLeaf (tree i) then [i]
      else leavesBelow tree height (left i) ++ leavesBelow tree height (right i)

theorem leavesBelow_holds (tree : Tree) (k height : Nat) : ∀ i, k ∈ leavesBelow tree height i →
    IsLeaf (tree k) ∧ ∃ steps, Above steps i k := by
  induction height with
  | zero =>
      intro i member
      by_cases leaf : IsLeaf (tree i)
      · simp only [leavesBelow, leaf, if_true, List.mem_singleton] at member
        exact ⟨member ▸ leaf, 0, member ▸ above_zero i⟩
      · simp [leavesBelow, leaf] at member
  | succ height ih =>
      intro i member
      by_cases leaf : IsLeaf (tree i)
      · simp only [leavesBelow, leaf, if_true, List.mem_singleton] at member
        exact ⟨member ▸ leaf, 0, member ▸ above_zero i⟩
      · have first (child : Nat) (side : up child = i) (inner : 0 < child) : Above 1 i child :=
          (above_succ 0 i child inner).mpr (side ▸ above_zero _)
        simp only [leavesBelow, leaf, if_false, List.mem_append] at member
        rcases member with in_left | in_right
        · obtain ⟨k_leaf, steps, above⟩ := ih (left i) in_left
          exact ⟨k_leaf, _, above_trans _ _ _ _ _ above
            (first (left i) (up_left i) (by unfold left; omega))⟩
        · obtain ⟨k_leaf, steps, above⟩ := ih (right i) in_right
          exact ⟨k_leaf, _, above_trans _ _ _ _ _ above
            (first (right i) (up_right i) (by unfold right; omega))⟩

theorem leavesBelow_reaches {tree : Tree} (shaped : Shaped tree) (k : Nat) (leaf : IsLeaf (tree k))
    (height : Nat) : ∀ i steps, steps ≤ height → Above steps i k → k ∈ leavesBelow tree height i := by
  have here (i : Nat) (above : Above 0 i k) : i = k := by
    unfold Above at above
    simpa using above
  induction height with
  | zero =>
      intro i steps low above
      obtain rfl : steps = 0 := Nat.le_zero.mp low
      simp [leavesBelow, here i above, leaf]
  | succ height ih =>
      intro i steps low above
      cases steps with
      | zero => simp [leavesBelow, here i above, leaf]
      | succ steps =>
          have branch := shaped.ancestor_branch i k ⟨steps, above⟩ leaf.1
          obtain ⟨child, reaches, side⟩ := above_child steps i k above
          have member := ih child steps (by omega) reaches
          simp only [leavesBelow, branch, leaf_branch, if_false, List.mem_append]
          rcases side with rfl | rfl
          · exact Or.inl member
          · exact Or.inr member

theorem leavesBelow_nodup (tree : Tree) (height : Nat) : ∀ level i, AtLevel level i →
    (leavesBelow tree height i).Nodup := by
  induction height with
  | zero =>
      intro level i _
      unfold leavesBelow
      split <;> simp
  | succ height ih =>
      intro level i at_level
      unfold leavesBelow
      split
      · simp
      · refine List.nodup_append.mpr ⟨ih _ _ (level_left level i at_level),
          ih _ _ (level_right level i at_level), ?_⟩
        rintro k in_left _ in_right rfl
        obtain ⟨_, first, below_left⟩ := leavesBelow_holds tree k height _ in_left
        obtain ⟨_, second, below_right⟩ := leavesBelow_holds tree k height _ in_right
        exact children_apart first second level i k at_level below_left below_right

theorem usedBelow_sum (tree : Tree) (height : Nat) : ∀ level i, AtLevel level i →
    usedBelow tree height level i =
      ((leavesBelow tree height i).map (blockBytes heapAddrLen)).sum := by
  induction height with
  | zero =>
      intro level i at_level
      unfold usedBelow leavesBelow
      split
      · simp [blockBytes_at heapAddrLen level i at_level, levelBytes]
      · rfl
  | succ height ih =>
      intro level i at_level
      unfold usedBelow leavesBelow
      split
      · simp [blockBytes_at heapAddrLen level i at_level, levelBytes]
      · rw [ih _ _ (level_left level i at_level), ih _ _ (level_right level i at_level),
          List.map_append, List.sum_append]

/-! The live blocks against the leaves. -/
section Live
variable {place : Placement} {s : State}

theorem Exact.spared (before : Exact place s) (call : Call) (modest : Modest s call) :
    Spared s call := by
  cases call with
  | free ptr => trivial
  | malloc size =>
      intro _
      refine ⟨fun block live => ?_, fun large => absurd modest (Nat.not_le.mpr large)⟩
      obtain ⟨i, leaf, rfl⟩ := before.tracked.live block live
      have inner : i ≠ 0 := fun root => before.root (root ▸ leaf)
      have deep : 0 < Nat.log 2 (i + 1) := Nat.log_pos Nat.one_lt_two (by omega)
      have shorter : heapAddrLen - Nat.log 2 (i + 1) < heapAddrLen :=
        Nat.sub_lt (by decide) deep
      exact (Nat.pow_lt_pow_right Nat.one_lt_two shorter).ne

theorem fresh_of_apart (block : Block) (live : List Block) (bytes : 0 < block.bytes)
    (apart : ∀ other ∈ live, Apart block other) : block ∉ live := by
  intro member
  have self := apart block member
  unfold Apart at self
  omega

theorem distinct_step (call : Call) (after : State) (before : Exact place s)
    (distinct : s.live.Nodup) (modest : Modest s call) (stepped : step place s call = some after) :
    after.live.Nodup := by
  cases call with
  | malloc size =>
      rcases malloc_serves before.tracked size (before.spared (.malloc size) modest) with
        failed | ⟨tree, j, answer, inside, bytes, _, apart⟩
      · simp only [step, failed, Option.map_some, if_true, Option.some.injEq] at stepped
        rwa [← stepped]
      · have found := (nodeAddr_leaf place j inside).1
        simp only [step, answer, Option.map_some, if_neg found, Option.some.injEq, bytes] at stepped
        rw [← stepped]
        exact List.nodup_cons.mpr ⟨fresh_of_apart _ _ (Nat.two_pow_pos _) apart, distinct⟩
  | free ptr =>
      obtain ⟨tree, answer, freed, _⟩ := free_spec before.tracked.wf ptr
      simp only [step, freed, Option.map_some, Option.some.injEq] at stepped
      rw [← stepped]
      exact distinct.filter _

theorem run_distinct (reached : Reaches (step place) Modest (· = initial) s) :
    Exact place s ∧ s.live.Nodup :=
  reached.invariant (fun s => Exact place s ∧ s.live.Nodup)
    (by rintro _ rfl; exact ⟨initial_exact place, List.nodup_nil⟩)
    fun before call after ⟨exactly, distinct⟩ modest stepped =>
      ⟨exact_step place before call after exactly modest stepped,
        distinct_step call after exactly distinct modest stepped⟩

theorem Exact.leaves_live (before : Exact place s) (distinct : s.live.Nodup) :
    ((leavesBelow s.tree heapTreeLevelCnt 0).map (nodeBlock place.heapPtr)).Perm s.live := by
  have root_level := (level_zero 0).mpr rfl
  have wf := before.tracked.wf
  have leaf_of {k : Nat} (member : k ∈ leavesBelow s.tree heapTreeLevelCnt 0) : IsLeaf (s.tree k) :=
    (leavesBelow_holds s.tree k heapTreeLevelCnt 0 member).1
  have nodes := (leavesBelow_nodup s.tree heapTreeLevelCnt 0 0 root_level).map_on
    (f := nodeBlock place.heapPtr) fun i i_in j j_in same => by
      refine leaf_unique wf i j (leaf_of i_in) (leaf_of j_in) ?_
      rw [wf.address i (leaf_of i_in), wf.address j (leaf_of j_in)]
      simp only [nodeBlock, Block.mk.injEq] at same
      exact same.1
  refine (List.perm_ext_iff_of_nodup nodes distinct).mpr fun block => ?_
  constructor
  · intro member
    obtain ⟨k, k_in, rfl⟩ := List.mem_map.mp member
    exact before.held k (leaf_of k_in)
  · intro live
    obtain ⟨k, leaf, rfl⟩ := before.tracked.live block live
    have inside := wf.shaped.node_inside k leaf.1
    obtain ⟨at_level, shallow⟩ := node_level k inside
    have under_root : Above (Nat.log 2 (k + 1)) 0 k := by
      have low := at_level.1
      have high := at_level.2
      rw [pow_succ] at high
      exact (Nat.div_eq_of_lt_le (by omega) (by omega)).symm
    exact List.mem_map.mpr ⟨k, leavesBelow_reaches wf.shaped k leaf _ 0 _ shallow under_root, rfl⟩

end Live

/-- `live` has the size of a block as `malloc` rounded it. -/
theorem heap_stats_exact (place : Placement) (s : State)
    (reached : Reaches (step place) Modest (· = initial) s) :
    ∃ stats, heapStats s.tree = some stats ∧ stats.used = (s.live.map Block.bytes).sum ∧
      stats.used + stats.free = stats.size ∧ stats.size = heapSize ∧ stats.used ≤ heapSize := by
  obtain ⟨before, distinct⟩ := run_distinct reached
  have shaped := before.tracked.wf.shaped
  have fits : usedBelow s.tree heapTreeLevelCnt 0 0 ≤ heapSize :=
    usedBelow_le s.tree heapTreeLevelCnt 0 0 (Nat.zero_add _).le
  have used : usedBelow s.tree heapTreeLevelCnt 0 0 = (s.live.map Block.bytes).sum := by
    rw [usedBelow_sum _ _ _ _ ((level_zero 0).mpr rfl),
      ← ((before.leaves_live distinct).map Block.bytes).sum_eq, List.map_map]
    rfl
  refine ⟨_, heapStats_used shaped, used, ?_, rfl, fits⟩
  exact Nat.add_sub_cancel' fits

theorem heap_stats_exact_run :
    ∃ s, exec (step sramPlacement) initial [.malloc 300, .malloc 1, .malloc 5000, .free 0x20000800] =
        some s ∧
      ∃ stats, heapStats s.tree = some stats ∧ stats.used = 128 + 8192 ∧ stats.used ≤ heapSize := by
  obtain ⟨s, executed, total⟩ :
      ∃ s ∈ exec (step sramPlacement) initial
          [.malloc 300, .malloc 1, .malloc 5000, .free 0x20000800],
        (s.live.map Block.bytes).sum = 128 + 8192 := by
    decide +kernel
  have begun : Reaches (step sramPlacement) Modest (· = initial) initial := .start rfl
  have reached := exec_reaches _ begun (by decide +kernel) executed
  obtain ⟨stats, answer, used, _, _, fits⟩ := heap_stats_exact sramPlacement s reached
  exact ⟨s, executed, stats, answer, used.trans total, fits⟩

end MulticoreRtos.Heap
