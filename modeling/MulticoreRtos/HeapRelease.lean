import MulticoreRtos.HeapSafety

/-!
`find_ptr` against a recursive search of the tree, and what `free` does to a
well-formed tree: it takes one leaf away, with the ancestors that lose their
last child, and keeps every other leaf.
-/

namespace MulticoreRtos.Heap

open DyadicTree

def locate (tree : Tree) (ptr : Nat) : Nat → Nat → Option Nat
  | 0, i => if tree i = ptr then some i else none
  | height + 1, i =>
      if tree i = ptr then some i
      else
        match if tree (left i) = null then none else locate tree ptr height (left i) with
        | some j => some j
        | none => if tree (right i) = null then none else locate tree ptr height (right i)

theorem index_small (i : Nat) (inside : i < heapTreeNodeCnt) :
    (2 * i + 1) % 2 ^ 16 = left i ∧ (2 * i + 2) % 2 ^ 16 = right i := by
  rw [node_count] at inside
  unfold left right
  omega

section Passes
variable {tree : Tree} {ptr i skip fuel level : Nat}

theorem find_here (at_level : AtLevel level i) (shallow : level ≤ heapTreeLevelCnt)
    (here : tree i = ptr) : findLoop tree ptr (fuel + 1) ⟨i, skip⟩ = some i := by
  have inside := node_bound level i at_level shallow
  simp only [findLoop, findStep, Nat.not_le.mpr inside, if_false, here, if_true]

theorem find_left (at_level : AtLevel level i) (inner : level < heapTreeLevelCnt)
    (other : tree i ≠ ptr) (early : skip ≤ i) (open_left : tree (left i) ≠ null) :
    findLoop tree ptr (fuel + 1) ⟨i, skip⟩ = findLoop tree ptr fuel ⟨left i, skip⟩ := by
  have inside := node_bound level i at_level inner.le
  obtain ⟨left_index, right_index⟩ := index_small i inside
  have left_inside := (children_bound level i at_level inner).1
  have not_right : right i ≠ skip := by unfold right; omega
  have not_left : left i ≠ skip := by unfold left; omega
  simp only [findLoop, findStep, Nat.not_le.mpr inside, if_false, other, left_index, right_index,
    not_right, Nat.not_le.mpr left_inside, open_left, not_left, or_self]

theorem find_right (at_level : AtLevel level i) (inner : level < heapTreeLevelCnt)
    (other : tree i ≠ ptr) (not_right : skip ≠ right i)
    (past_left : tree (left i) = null ∨ skip = left i) (open_right : tree (right i) ≠ null) :
    findLoop tree ptr (fuel + 1) ⟨i, skip⟩ = findLoop tree ptr fuel ⟨right i, skip⟩ := by
  have inside := node_bound level i at_level inner.le
  obtain ⟨left_index, right_index⟩ := index_small i inside
  have right_inside := (children_bound level i at_level inner).2
  have past : heapTreeNodeCnt ≤ left i ∨ tree (left i) = null ∨ left i = skip :=
    Or.inr (past_left.imp_right Eq.symm)
  simp only [findLoop, findStep, Nat.not_le.mpr inside, if_false, other, left_index, right_index,
    not_right.symm, past, if_true, Nat.not_lt.mpr right_inside.le, Nat.not_le.mpr right_inside,
    open_right]

theorem find_back (at_level : AtLevel level i) (shallow : level ≤ heapTreeLevelCnt)
    (other : tree i ≠ ptr)
    (exhausted : skip = right i ∨ (skip ≠ right i ∧
      (heapTreeNodeCnt ≤ left i ∨ tree (left i) = null ∨ left i = skip) ∧
      (heapTreeNodeCnt < right i ∨ (right i < heapTreeNodeCnt ∧ tree (right i) = null)))) :
    findLoop tree ptr (fuel + 1) ⟨i, skip⟩ =
      if i = 0 then some 0 else findLoop tree ptr fuel ⟨up i, i⟩ := by
  have inside := node_bound level i at_level shallow
  obtain ⟨left_index, right_index⟩ := index_small i inside
  have back : findStep tree ptr ⟨i, skip⟩ =
      some (if i = 0 then .inr 0 else .inl ⟨traverseUp i, i⟩) := by
    rcases exhausted with done | ⟨not_right, past, no_right⟩
    · simp only [findStep, Nat.not_le.mpr inside, if_false, other, right_index, done, if_true]
    · rcases no_right with beyond | ⟨right_inside, empty⟩
      · simp only [findStep, Nat.not_le.mpr inside, if_false, other, left_index, right_index,
          not_right.symm, past, if_true, beyond]
      · simp only [findStep, Nat.not_le.mpr inside, if_false, other, left_index, right_index,
          not_right.symm, past, if_true, Nat.not_lt.mpr right_inside.le,
          Nat.not_le.mpr right_inside, empty]
  rw [findLoop, back]
  by_cases root : i = 0
  · simp only [root, if_true]
  · simp only [root, if_false, up, traverseUp]

end Passes

def Finds (tree : Tree) (ptr height i skip : Nat) : Prop :=
  ∃ n ≤ passes height, ∀ fuel,
    findLoop tree ptr (fuel + n) ⟨i, skip⟩ =
      match locate tree ptr height i with
      | some j => some j
      | none => if i = 0 then some 0 else findLoop tree ptr fuel ⟨up i, i⟩

theorem bottom_children (i : Nat) (at_level : AtLevel heapTreeLevelCnt i) :
    heapTreeNodeCnt ≤ left i ∧ heapTreeNodeCnt < right i := by
  have least : 2 ^ 10 ≤ i + 1 := at_level.1
  rw [node_count]
  unfold left right
  omega

theorem finds_right (tree : Tree) (ptr level height i skip : Nat)
    (depth : level + (height + 1) = heapTreeLevelCnt) (at_level : AtLevel level i)
    (other : tree i ≠ ptr) (early : skip < right i)
    (past_left : tree (left i) = null ∨ skip = left i)
    (right_ih : tree (right i) ≠ null → Finds tree ptr height (right i) skip) :
    ∃ n ≤ passes height + 2, ∀ fuel,
      findLoop tree ptr (fuel + n) ⟨i, skip⟩ =
        match if tree (right i) = null then none else locate tree ptr height (right i) with
        | some j => some j
        | none => if i = 0 then some 0 else findLoop tree ptr fuel ⟨up i, i⟩ := by
  have inner : level < heapTreeLevelCnt := by omega
  have right_inside := (children_bound level i at_level inner).2
  by_cases empty : tree (right i) = null
  · refine ⟨1, by omega, fun fuel => ?_⟩
    rw [find_back at_level inner.le other (Or.inr ⟨Nat.ne_of_lt early,
      Or.inr (past_left.imp_right Eq.symm), Or.inr ⟨right_inside, empty⟩⟩)]
    simp [empty]
  · obtain ⟨n, bound, visited⟩ := right_ih empty
    refine ⟨n + 2, by omega, fun fuel => ?_⟩
    rw [show fuel + (n + 2) = fuel + 1 + n + 1 by omega,
      find_right at_level inner other (Nat.ne_of_lt early) past_left empty, visited (fuel + 1)]
    simp only [empty, if_false]
    cases locate tree ptr height (right i) with
    | some j => rfl
    | none =>
        have not_root : right i ≠ 0 := by unfold right; omega
        simp only [not_root, if_false, up_right]
        exact find_back at_level inner.le other (Or.inl rfl)

theorem finds (tree : Tree) (ptr height : Nat) :
    ∀ (level i skip : Nat), level + height = heapTreeLevelCnt → AtLevel level i → skip ≤ i →
      Finds tree ptr height i skip := by
  induction height with
  | zero =>
      intro level i skip depth at_level early
      obtain rfl : level = heapTreeLevelCnt := by omega
      obtain ⟨no_left, no_right⟩ := bottom_children i at_level
      refine ⟨1, le_rfl, fun fuel => ?_⟩
      by_cases here : tree i = ptr
      · rw [find_here at_level le_rfl here]
        simp [locate, here]
      · have beyond : skip ≠ right i := by unfold right; omega
        rw [find_back at_level le_rfl here (Or.inr ⟨beyond, Or.inl no_left, Or.inl no_right⟩)]
        simp [locate, here]
  | succ height ih =>
      intro level i skip depth at_level early
      have inner : level < heapTreeLevelCnt := by omega
      have left_level := level_left level i at_level
      have right_level := level_right level i at_level
      have left_later := left_gt i
      have siblings : left i < right i := by unfold left right; omega
      by_cases here : tree i = ptr
      · refine ⟨1, by simp only [passes]; omega, fun fuel => ?_⟩
        rw [find_here at_level inner.le here]
        simp [locate, here]
      · by_cases empty : tree (left i) = null
        -- an empty left child is skipped; the walk comes back from any other by `skip`
        · obtain ⟨n, bound, visited⟩ := finds_right tree ptr level height i skip depth at_level here
            (by omega) (Or.inl empty)
            fun _ => ih (level + 1) (right i) skip (by omega) right_level (by omega)
          refine ⟨n, by simp only [passes]; omega, fun fuel => ?_⟩
          rw [visited fuel]
          simp [locate, here, empty]
        · obtain ⟨n, n_bound, left_visited⟩ :=
            ih (level + 1) (left i) skip (by omega) left_level (by omega)
          obtain ⟨m, m_bound, right_visited⟩ := finds_right tree ptr level height i (left i) depth
            at_level here siblings (Or.inr rfl)
            fun _ => ih (level + 1) (right i) (left i) (by omega) right_level siblings.le
          refine ⟨n + m + 1, by simp only [passes]; omega, fun fuel => ?_⟩
          rw [show fuel + (n + m + 1) = fuel + m + n + 1 by omega,
            find_left at_level inner here early empty, left_visited (fuel + m)]
          simp only [locate, here, empty, if_false]
          cases locate tree ptr height (left i) with
          | some j => rfl
          | none =>
              have not_root : left i ≠ 0 := by omega
              simp only [not_root, if_false, up_left]
              exact right_visited fuel

theorem findPtr_locate (tree : Tree) (ptr : Nat) :
    findPtr tree ptr = some ((locate tree ptr heapTreeLevelCnt 0).getD 0) := by
  obtain ⟨n, bound, visited⟩ := finds tree ptr heapTreeLevelCnt 0 0 0 (Nat.zero_add _)
    ((level_zero 0).mpr rfl) le_rfl
  have enough : passes heapTreeLevelCnt < searchFuel := by decide
  rw [findPtr, show searchFuel = (searchFuel - n) + n by omega, visited]
  cases locate tree ptr heapTreeLevelCnt 0 <;> rfl

theorem locate_holds (tree : Tree) (ptr height : Nat) :
    ∀ i j, tree i ≠ null → locate tree ptr height i = some j → tree j = ptr ∧ tree j ≠ null := by
  induction height with
  | zero =>
      intro i j taken found
      by_cases here : tree i = ptr
      · simp only [locate, here, if_true, Option.some.injEq] at found
        subst found
        exact ⟨here, taken⟩
      · simp [locate, here] at found
  | succ height ih =>
      intro i j taken found
      by_cases here : tree i = ptr
      · simp only [locate, here, if_true, Option.some.injEq] at found
        subst found
        exact ⟨here, taken⟩
      · simp only [locate, here, if_false] at found
        cases first : if tree (left i) = null then none else locate tree ptr height (left i) with
        | some result =>
            rw [first] at found
            cases found
            by_cases empty : tree (left i) = null
            · simp [empty] at first
            · simp only [empty, if_false] at first
              exact ih (left i) j empty first
        | none =>
            rw [first] at found
            by_cases empty : tree (right i) = null
            · simp [empty] at found
            · simp only [empty, if_false] at found
              exact ih (right i) j empty found

theorem locate_reaches {tree : Tree} (shaped : Shaped tree) (k : Nat) (taken : tree k ≠ null)
    (height : Nat) : ∀ i steps, steps ≤ height → Above steps i k →
      locate tree (tree k) height i ≠ none := by
  induction height with
  | zero =>
      intro i steps low above
      have same : i = k := by
        obtain rfl : steps = 0 := Nat.le_zero.mp low
        unfold Above at above
        simpa using above
      simp [locate, same]
  | succ height ih =>
      intro i steps low above
      by_cases here : tree i = tree k
      · simp [locate, here]
      · cases steps with
        | zero =>
            unfold Above at above
            simp only [pow_zero, Nat.div_one, Nat.add_right_cancel_iff] at above
            exact absurd (by rw [above]) here
        | succ steps =>
            obtain ⟨child, reaches, side⟩ := above_child steps i k above
            have used : tree child ≠ null := by
              cases steps with
              | zero =>
                  have same : child = k := by unfold Above at reaches; simpa using reaches
                  rwa [same]
              | succ steps =>
                  rw [shaped.ancestor_branch child k ⟨steps, reaches⟩ taken]
                  exact branch_not_null
            have found := ih child steps (by omega) reaches
            simp only [locate, here, if_false]
            rcases side with rfl | rfl
            · cases first : locate tree (tree k) height (left i) with
              | none => exact absurd first found
              | some j => simp [used]
            · cases first : if tree (left i) = null then none
                  else locate tree (tree k) height (left i) with
              | none => simpa only [used, if_false] using found
              | some j => simp

/-- `find_ptr` answers 0 or a node that holds the pointer, and never takes
`NULL` or `BRANCH_NODE` for an allocated block. -/
theorem findPtr_leaf {tree : Tree} (shaped : Shaped tree) (used : tree 0 ≠ null) (ptr i : Nat)
    (found : findPtr tree ptr = some i) (inner : i ≠ 0) : tree i = ptr ∧ IsLeaf (tree i) := by
  rw [findPtr_locate, Option.some.injEq] at found
  cases located : locate tree ptr heapTreeLevelCnt 0 with
  | none =>
      rw [located] at found
      exact absurd found.symm inner
  | some j =>
      rw [located] at found
      obtain rfl : j = i := found
      obtain ⟨holds, taken⟩ := locate_holds tree ptr heapTreeLevelCnt 0 j used located
      refine ⟨holds, taken, fun branch => ?_⟩
      have root : tree 0 ≠ branchNode := by
        intro marked
        have first : locate tree ptr heapTreeLevelCnt 0 = some 0 := by
          simp [locate, heapTreeLevelCnt, heapAddrLen, heapAddrMinLen, marked, ← holds, branch]
        rw [first] at located
        exact inner (Option.some.inj located).symm
      exact taken (shaped.below_root_null root j inner)

theorem findPtr_zero {tree : Tree} (shaped : Shaped tree) (ptr : Nat)
    (found : findPtr tree ptr = some 0) :
    tree 0 = ptr ∨ ∀ k, tree k ≠ null → tree k ≠ ptr := by
  rw [findPtr_locate, Option.some.injEq] at found
  cases located : locate tree ptr heapTreeLevelCnt 0 with
  | none =>
      right
      rintro k taken rfl
      have inside := shaped.node_inside k taken
      obtain ⟨at_level, shallow⟩ := node_level k inside
      have top : Above (Nat.log 2 (k + 1)) 0 k := by
        unfold Above
        have exact_one := Nat.div_eq_of_lt_le (m := k + 1) (k := 1) (n := 2 ^ Nat.log 2 (k + 1))
          (by rw [Nat.one_mul]; exact at_level.1)
          (by rw [← Nat.pow_succ']; exact at_level.2)
        omega
      exact absurd located (locate_reaches shaped k taken heapTreeLevelCnt 0 _ shallow top)
  | some j =>
      rw [located] at found
      obtain rfl : j = 0 := found
      by_cases root : tree 0 = ptr
      · exact Or.inl root
      · right
        intro k taken holds
        have used : tree 0 ≠ null := by
          intro empty
          by_cases top : k = 0
          · exact taken (top ▸ empty)
          · exact taken (shaped.below_root_null (by rw [empty]; exact branch_not_null.symm) k top)
        exact root (locate_holds tree ptr heapTreeLevelCnt 0 0 used located).1

/-- `after` is `tree` with node `i` given up, and with it the ancestors that are
left without a child. -/
structure Released (tree after : Tree) (i : Nat) : Prop where
  here : after i = null
  ancestors : ∀ a, Ancestor a i →
    after a = if after (left a) = null ∧ after (right a) = null then null else tree a
  keeps : ∀ k, k ≠ i → ¬ Ancestor k i → after k = tree k

theorem freeParents_succ (fuel : Nat) (tree : Tree) (i : Nat) :
    freeParents (fuel + 1) tree i =
      if i = 0 then tree
      else if tree (left (up i)) ≠ null then tree
      else if tree (right (up i)) ≠ null then tree
      else freeParents fuel (Function.update tree (up i) null) (up i) := rfl

theorem released_here {tree : Tree} {i : Nat} (vacant : tree i = null)
    (marked : ∀ a, Ancestor a i → tree a = branchNode)
    (settled : 0 < i → tree (left (up i)) ≠ null ∨ tree (right (up i)) ≠ null) :
    Released tree tree i where
  here := vacant
  keeps _ _ _ := rfl
  ancestors a above := by
    have inner : 0 < i := Nat.zero_lt_of_lt (ancestor_lt a i above)
    have kept : ¬ (tree (left a) = null ∧ tree (right a) = null) := by
      rintro ⟨left_null, right_null⟩
      rcases (ancestor_up a i inner).mp above with rfl | higher
      · exact (settled inner).elim (· left_null) (· right_null)
      · obtain ⟨child, reaches, side⟩ := ancestor_child a (up i) higher
        have branch := marked child ((ancestor_up child i inner).mpr reaches)
        rcases side with rfl | rfl
        · exact branch_not_null (branch.symm.trans left_null)
        · exact branch_not_null (branch.symm.trans right_null)
    rw [if_neg kept]

theorem Released.climb {tree after : Tree} {i : Nat} (inner : 0 < i) (vacant : tree i = null)
    (left_null : tree (left (up i)) = null) (right_null : tree (right (up i)) = null)
    (released : Released (Function.update tree (up i) null) after (up i)) :
    Released tree after i := by
  have lower := up_lt i inner
  have below : ∀ k, up i < k → after k = tree k := by
    intro k order
    have off : ¬ Ancestor k (up i) := fun above => by
      have bound := ancestor_lt k (up i) above
      omega
    rw [released.keeps k (Nat.ne_of_gt order) off, Function.update_of_ne (Nat.ne_of_gt order)]
  refine ⟨by rw [below i lower, vacant], ?_, ?_⟩
  · intro a above
    rcases (ancestor_up a i inner).mp above with rfl | higher
    · rw [released.here, below _ (left_gt _), below _ (right_gt _), left_null, right_null]
      simp
    · have other := Nat.ne_of_lt (ancestor_lt a (up i) higher)
      have answer := released.ancestors a higher
      rwa [Function.update_of_ne other] at answer
  · intro k other off
    have not_up : k ≠ up i := fun same => off ((ancestor_up k i inner).mpr (Or.inl same))
    have not_above : ¬ Ancestor k (up i) :=
      fun above => off ((ancestor_up k i inner).mpr (Or.inr above))
    rw [released.keeps k not_up not_above, Function.update_of_ne not_up]

theorem freeParents_released (fuel : Nat) :
    ∀ (tree : Tree) (i : Nat), i ≤ fuel → tree i = null →
      (∀ a, Ancestor a i → tree a = branchNode) → Released tree (freeParents fuel tree i) i := by
  induction fuel with
  | zero =>
      intro tree i low vacant marked
      exact released_here vacant marked fun inner => absurd inner (by omega)
  | succ fuel ih =>
      intro tree i low vacant marked
      rw [freeParents_succ]
      by_cases root : i = 0
      · rw [if_pos root]
        exact released_here vacant marked fun inner => absurd root (Nat.ne_of_gt inner)
      · have inner : 0 < i := Nat.pos_of_ne_zero root
        have lower := up_lt i inner
        rw [if_neg root]
        by_cases left_null : tree (left (up i)) = null
        · by_cases right_null : tree (right (up i)) = null
          · rw [if_neg (not_not.mpr left_null), if_neg (not_not.mpr right_null)]
            apply Released.climb inner vacant left_null right_null
            apply ih _ (up i) (by omega) (Function.update_self _ _ _)
            intro a higher
            rw [Function.update_of_ne (Nat.ne_of_lt (ancestor_lt a (up i) higher))]
            exact marked a ((ancestor_up a i inner).mpr (Or.inr higher))
          · rw [if_neg (not_not.mpr left_null), if_pos right_null]
            exact released_here vacant marked fun _ => Or.inr right_null
        · rw [if_pos left_null]
          exact released_here vacant marked fun _ => Or.inl left_null

section Release
variable {tree after : Tree} {i : Nat}

theorem Released.leaf (released : Released tree after i) (shaped : Shaped tree)
    (leaf : IsLeaf (tree i)) (k : Nat) (k_leaf : IsLeaf (tree k)) (other : k ≠ i) :
    after k = tree k := by
  apply released.keeps k other
  intro above
  rw [shaped.ancestor_branch k i above leaf.1] at k_leaf
  exact leaf_branch k_leaf

theorem Released.taken (released : Released tree after i) (k : Nat) (used : after k ≠ null) :
    after k = tree k ∧ k ≠ i := by
  have other : k ≠ i := by
    rintro rfl
    exact used released.here
  refine ⟨?_, other⟩
  by_cases above : Ancestor k i
  · rw [released.ancestors k above] at used ⊢
    by_cases empty : after (left k) = null ∧ after (right k) = null
    · rw [if_pos empty] at used
      exact absurd rfl used
    · rw [if_neg empty]
  · exact released.keeps k other above

theorem Released.shaped (released : Released tree after i) (before : Shaped tree)
    (leaf : IsLeaf (tree i)) : Shaped after where
  inside k outside := by
    by_contra used
    obtain ⟨same, _⟩ := released.taken k used
    exact used (same.trans (before.inside k outside))
  parent k inner used := by
    obtain ⟨same, _⟩ := released.taken k used
    have marked := before.parent k inner (by rwa [← same])
    have other : up k ≠ i := by
      intro equal
      rw [equal] at marked
      exact leaf.2 marked
    by_cases above : Ancestor (up k) i
    · have kept : ¬ (after (left (up k)) = null ∧ after (right (up k)) = null) := by
        rintro ⟨left_null, right_null⟩
        rcases left_or_right k inner with side | side
        · exact used (side ▸ left_null)
        · exact used (side ▸ right_null)
      rw [released.ancestors _ above, if_neg kept, marked]
    · rw [released.keeps _ other above, marked]
  branch k marked := by
    have used : after k ≠ null := by
      rw [marked]
      exact branch_not_null
    obtain ⟨same, other⟩ := released.taken k used
    by_cases above : Ancestor k i
    · by_contra empty
      push Not at empty
      rw [released.ancestors k above, if_pos empty] at used
      exact used rfl
    · -- off the path no child is touched either
      have keeps : ∀ c, 0 < c → up c = k → tree c ≠ null → after c ≠ null := by
        rintro c inner rfl used_before
        have c_other : c ≠ i := by
          rintro rfl
          exact above ((ancestor_up _ c inner).mpr (Or.inl rfl))
        have c_off : ¬ Ancestor c i := fun higher =>
          above (ancestor_trans _ c i ((ancestor_up _ c inner).mpr (Or.inl rfl)) higher)
        rwa [released.keeps c c_other c_off]
      exact (before.branch k (same ▸ marked)).imp
        (keeps _ (by unfold left; omega) (up_left k)) (keeps _ (by unfold right; omega) (up_right k))

theorem Released.wellFormed {place : Placement} (released : Released tree after i)
    (before : WellFormed place tree) (leaf : IsLeaf (tree i)) : WellFormed place after := by
  refine (released.shaped before.shaped leaf).wellFormed fun k k_leaf => ?_
  obtain ⟨same, _⟩ := released.taken k k_leaf.1
  rw [same] at k_leaf ⊢
  exact before.address k k_leaf

theorem Released.unique {other : Tree} (first : Released tree after i)
    (second : Released tree other i) : after = other := by
  have agree : ∀ n k, i - k ≤ n → after k = other k := by
    intro n
    induction n with
    | zero =>
        intro k low
        by_cases same : k = i
        · rw [same, first.here, second.here]
        · have off : ¬ Ancestor k i := fun above => by
            have order := ancestor_lt k i above
            omega
          rw [first.keeps k same off, second.keeps k same off]
    | succ n ih =>
        intro k low
        by_cases above : Ancestor k i
        · have order := ancestor_lt k i above
          have lefts := ih (left k) (by unfold left; omega)
          have rights := ih (right k) (by unfold right; omega)
          rw [first.ancestors k above, second.ancestors k above, lefts, rights]
        · by_cases same : k = i
          · rw [same, first.here, second.here]
          · rw [first.keeps k same above, second.keeps k same above]
  funext k
  exact agree (i - k) k le_rfl

end Release

theorem free_found {tree : Tree} (shaped : Shaped tree) {ptr i : Nat} (used : tree 0 ≠ null)
    (found : findPtr tree ptr = some i) (inner : i ≠ 0) :
    ∃ after, free tree ptr = some (after, 0) ∧ Released tree after i := by
  obtain ⟨_, leaf⟩ := findPtr_leaf shaped used ptr i found inner
  refine ⟨freeParents i (Function.update tree i null) i,
    by simp only [free, if_neg used, found, if_neg inner], ?_⟩
  have marked : ∀ a, Ancestor a i → Function.update tree i null a = branchNode := by
    intro a above
    rw [Function.update_of_ne (Nat.ne_of_lt (ancestor_lt a i above))]
    exact shaped.ancestor_branch a i above leaf.1
  have released := freeParents_released i (Function.update tree i null) i le_rfl
    (Function.update_self _ _ _) marked
  refine ⟨released.here, fun a above => ?_, fun k other off => ?_⟩
  · have answer := released.ancestors a above
    rwa [Function.update_of_ne (Nat.ne_of_lt (ancestor_lt a i above))] at answer
  · rw [released.keeps k other off, Function.update_of_ne other]

/-- Every outcome of `free`: refused with nothing changed, when the root holds
the pointer or no leaf does, or one leaf that holds it is given up. -/
theorem free_cases {tree : Tree} (shaped : Shaped tree) (ptr : Nat) :
    (free tree ptr = some (tree, 1) ∧ (tree 0 = ptr ∨ ∀ k, tree k ≠ null → tree k ≠ ptr)) ∨
    ∃ i after, free tree ptr = some (after, 0) ∧ i ≠ 0 ∧ tree i = ptr ∧ IsLeaf (tree i) ∧
      Released tree after i := by
  by_cases empty : tree 0 = null
  · refine Or.inl ⟨by simp [free, empty], Or.inr fun k taken => ?_⟩
    by_cases top : k = 0
    · exact absurd (top ▸ empty) taken
    · have root : tree 0 ≠ branchNode := by
        rw [empty]
        exact branch_not_null.symm
      exact absurd (shaped.below_root_null root k top) taken
  · obtain ⟨i, found⟩ : ∃ i, findPtr tree ptr = some i := ⟨_, findPtr_locate tree ptr⟩
    by_cases root : i = 0
    · subst root
      exact Or.inl ⟨by simp [free, empty, found], findPtr_zero shaped ptr found⟩
    · obtain ⟨holds, leaf⟩ := findPtr_leaf shaped empty ptr i found root
      obtain ⟨after, freed, released⟩ := free_found shaped empty found root
      exact Or.inr ⟨i, after, freed, root, holds, leaf, released⟩

/-- `free` completes, keeps the tree well formed and takes no leaf but one that
holds the pointer it was given. -/
theorem free_spec {place : Placement} {tree : Tree} (wf : WellFormed place tree) (ptr : Nat) :
    ∃ after answer, free tree ptr = some (after, answer) ∧ WellFormed place after ∧
      ∀ i, IsLeaf (tree i) → tree i ≠ ptr → after i = tree i := by
  rcases free_cases wf.shaped ptr with ⟨refused, _⟩ | ⟨i, after, freed, _, holds, leaf, released⟩
  · exact ⟨tree, 1, refused, wf, fun _ _ _ => rfl⟩
  · refine ⟨after, 0, freed, released.wellFormed wf leaf, fun k k_leaf other => ?_⟩
    exact released.leaf wf.shaped leaf k k_leaf (by rintro rfl; exact other holds)

end MulticoreRtos.Heap
