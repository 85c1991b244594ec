import MulticoreRtos.HeapShape

/-!
What `malloc` and `free` do to `heap_tree`, node by node. While no request is for
more than half of the heap, `malloc` takes the free block of the right size with
the lowest address and `free` is its inverse. `free` takes index 0 for "not
found", so a block that is the whole heap can never be given back.
-/

namespace MulticoreRtos.Heap

open DyadicTree Transition

def Held (s : State) (ptr : Nat) : Prop := ∃ block ∈ s.live, block.ptr = ptr

/-- Every live block is in the tree, whatever was asked for before. -/
structure Backed (place : Placement) (s : State) : Prop where
  shaped : Shaped s.tree
  root : IsLeaf (s.tree 0) → s.tree 0 = place.heapPtr
  held : ∀ ptr, Held s ptr → ∃ k, IsLeaf (s.tree k) ∧ s.tree k = ptr

theorem initial_backed (place : Placement) : Backed place initial where
  shaped := heapInit_shaped
  root leaf := absurd rfl leaf.1
  held := by simp [Held, initial]

theorem Allocates.backed {place : Placement} {s : State} {size : Nat} {after : Tree} {j ptr : Nat}
    (backed : Backed place s) (taken : Allocates place.heapPtr s.tree size after j ptr) :
    Backed place ⟨after, ⟨ptr, blockSizeFor size⟩ :: s.live⟩ := by
  have here := taken.grown.here
  have new_leaf : IsLeaf (after j) := by
    rw [here]
    exact taken.leaf
  have root : IsLeaf (after 0) → after 0 = place.heapPtr := by
    intro leaf
    by_cases top : j = 0
    · rw [← top, here]
      rcases taken.address with same | same
      · rw [same, top, nodeAddr_root]
      · exact same
    · rw [taken.grown.marks 0 (root_ancestor j (Nat.pos_of_ne_zero top))] at leaf
      exact absurd leaf leaf_branch
  have kept : ∀ block ∈ s.live, ∃ k, IsLeaf (after k) ∧ after k = block.ptr := by
    intro block old
    obtain ⟨k, leaf, same⟩ := backed.held block.ptr ⟨block, old, rfl⟩
    by_cases above : Ancestor k j
    · -- a root block that is overwritten leaves its address to the new block
      obtain ⟨rfl, address⟩ := taken.over_root k above leaf
      exact ⟨j, new_leaf, by rw [here, address, ← backed.root leaf, same]⟩
    · obtain ⟨_, same_value⟩ := taken.grown.leaf k leaf above
      exact ⟨k, by rwa [same_value], by rw [same_value, same]⟩
  refine ⟨taken.grown.shaped backed.shaped taken.leaf taken.inside, root, ?_⟩
  rintro _ ⟨block, member, rfl⟩
  rcases List.mem_cons.mp member with rfl | old
  · exact ⟨j, new_leaf, here⟩
  · exact kept block old

theorem Released.backed {place : Placement} {s : State} {i ptr : Nat} {after : Tree}
    (backed : Backed place s) (holds : s.tree i = ptr) (leaf : IsLeaf (s.tree i))
    (released : Released s.tree after i) :
    Backed place ⟨after, s.live.filter fun block => block.ptr ≠ ptr⟩ := by
  have root : IsLeaf (after 0) → after 0 = place.heapPtr := by
    intro root_leaf
    have same := (released.taken 0 root_leaf.1).1
    rw [same] at root_leaf ⊢
    exact backed.root root_leaf
  have kept : ∀ block ∈ s.live, block.ptr ≠ ptr → ∃ k, IsLeaf (after k) ∧ after k = block.ptr := by
    intro block old other
    obtain ⟨k, k_leaf, same⟩ := backed.held _ ⟨block, old, rfl⟩
    have apart : k ≠ i := by
      rintro rfl
      exact other (same.symm.trans holds)
    have same_value := released.leaf backed.shaped leaf k k_leaf apart
    exact ⟨k, by rwa [same_value], by rw [same_value, same]⟩
  refine ⟨released.shaped backed.shaped leaf, root, ?_⟩
  rintro _ ⟨block, member, rfl⟩
  obtain ⟨old, other⟩ := List.mem_filter.mp member
  exact kept block old (by simpa using other)

theorem backed_step (place : Placement) (s : State) (call : Call) (after : State)
    (backed : Backed place s) (stepped : step place s call = some after) : Backed place after := by
  cases call with
  | malloc size =>
      rcases malloc_step place s backed.shaped size with failed | ⟨tree, j, ptr, taken, served⟩
      · obtain rfl := Option.some.inj (failed.symm.trans stepped)
        exact backed
      · obtain rfl := Option.some.inj (served.symm.trans stepped)
        exact taken.backed backed
  | free ptr =>
      rcases free_step place s backed.shaped ptr with
        ⟨refused, _⟩ | ⟨i, tree, freed, _, _, holds, leaf, released⟩
      · obtain rfl := Option.some.inj (refused.symm.trans stepped)
        refine ⟨backed.shaped, backed.root, ?_⟩
        rintro _ ⟨block, member, rfl⟩
        exact backed.held _ ⟨block, (List.mem_filter.mp member).1, rfl⟩
      · obtain rfl := Option.some.inj (freed.symm.trans stepped)
        exact released.backed backed holds leaf

theorem run_backed (place : Placement) {s : State}
    (reached : Reaches (step place) Transition.free (· = initial) s) : Backed place s :=
  reached.invariant (Backed place) (by rintro _ rfl; exact initial_backed place)
    fun before call after backed _ => backed_step place before call after backed

/-- What a caller of `free(ptr)` relies on. -/
def FreesExactly (s : State) (ptr : Nat) : Prop :=
  (Held s ptr → ∃ i after, s.tree i = ptr ∧ free s.tree ptr = some (after, 0) ∧
    Released s.tree after i) ∧
  (¬ Held s ptr → free s.tree ptr = some (s.tree, 1))

/-- In every reachable state `free` is exact for a live address unless the root
holds it, and for any other value unless a node below the root holds it. -/
theorem free_exact_iff (place : Placement) (s : State)
    (reached : Reaches (step place) Transition.free (· = initial) s) (ptr : Nat) :
    FreesExactly s ptr ↔
      (Held s ptr → s.tree 0 ≠ ptr) ∧
      (¬ Held s ptr → ∀ i, i ≠ 0 → IsLeaf (s.tree i) → s.tree i ≠ ptr) := by
  have backed := run_backed place reached
  constructor
  · rintro ⟨frees, refuses⟩
    refine ⟨fun held root => ?_, fun stale i inner leaf holds => ?_⟩
    · obtain ⟨_, _, _, freed, _⟩ := frees held
      obtain ⟨k, leaf, same⟩ := backed.held ptr held
      have used : s.tree 0 ≠ null := by
        rw [root, ← same]
        exact leaf.1
      have here : findPtr s.tree ptr = some 0 := by
        rw [findPtr_locate]
        simp [locate, heapTreeLevelCnt, heapAddrLen, heapAddrMinLen, root]
      simp [free, used, here] at freed
    · have refused := refuses stale
      have root : s.tree 0 = branchNode :=
        backed.shaped.ancestor_branch 0 i (root_ancestor i (Nat.pos_of_ne_zero inner)) leaf.1
      rcases free_cases backed.shaped ptr with ⟨_, top | absent⟩ | ⟨_, _, freed, _⟩
      · rw [← top, root] at holds
        exact leaf.2 holds
      · exact absent i leaf.1 holds
      · simp [freed] at refused
  · rintro ⟨below, absent⟩
    refine ⟨fun held => ?_, fun stale => ?_⟩
    · obtain ⟨k, leaf, same⟩ := backed.held ptr held
      rcases free_cases backed.shaped ptr with ⟨_, top | none_holds⟩ | ⟨i, after, freed, _, holds, _, released⟩
      · exact absurd top (below held)
      · exact absurd same (none_holds k leaf.1)
      · exact ⟨i, after, holds, freed, released⟩
    · rcases free_cases backed.shaped ptr with ⟨refused, _⟩ | ⟨i, _, _, inner, holds, leaf, _⟩
      · exact refused
      · exact absurd holds (absent stale i inner leaf)

/-- The second of four neighbours. -/
theorem free_exact_between :
    ∃ s, exec (step sramPlacement) initial fourBlocks = some s ∧
      s.live = [⟨0x20001000, 2048⟩, ⟨0x20000E00, 128⟩, ⟨0x20000C00, 512⟩, ⟨0x20000800, 1024⟩] ∧
      (free s.tree 0x20000C00).map Prod.snd = some 0 ∧ FreesExactly s 0x20000C00 := by
  obtain ⟨s, executed, live, answer, root⟩ :
      ∃ s ∈ exec (step sramPlacement) initial fourBlocks,
        s.live = [⟨0x20001000, 2048⟩, ⟨0x20000E00, 128⟩, ⟨0x20000C00, 512⟩, ⟨0x20000800, 1024⟩] ∧
        (free s.tree 0x20000C00).map Prod.snd = some 0 ∧ s.tree 0 ≠ 0x20000C00 := by
    decide +kernel
  have begun : Reaches (step sramPlacement) Transition.free (· = initial) initial := .start rfl
  have reached := exec_reaches fourBlocks begun (allowed_free _ _ _) executed
  have held : Held s 0x20000C00 := ⟨⟨0x20000C00, 512⟩, by simp [live], rfl⟩
  exact ⟨s, executed, live, answer, (free_exact_iff sramPlacement s reached 0x20000C00).mpr
    ⟨fun _ => root, fun stale => absurd held stale⟩⟩

/-- The whole heap as one block is refused by `free`, for good. -/
theorem whole_block_not_freed :
    ∃ s, exec (step sramPlacement) initial [.malloc 131072] = some s ∧
      ¬ FreesExactly s 0x20000800 := by
  refine ⟨⟨Function.update heapInit 0 0x20000800, [⟨0x20000800, 131072⟩]⟩, rfl, fun exact_free => ?_⟩
  obtain ⟨_, _, _, freed, _⟩ := exact_free.1 ⟨_, List.mem_singleton.mpr rfl, rfl⟩
  have answer : (free (Function.update heapInit 0 0x20000800) 0x20000800).map Prod.snd = some 1 := by
    decide
  simp [freed] at answer

/-! Runs in which no request is for more than half of the heap. -/

def Modest (_ : State) : Call → Prop
  | .malloc size => size ≤ heapSize / 2
  | .free _ => True

instance (s : State) (call : Call) : Decidable (Modest s call) :=
  match call with
  | .malloc _ => inferInstanceAs (Decidable (_ ≤ _))
  | .free _ => inferInstanceAs (Decidable True)

structure Exact (place : Placement) (s : State) : Prop where
  tracked : Tracked place s
  root : ¬ IsLeaf (s.tree 0)
  held : ∀ i, IsLeaf (s.tree i) → nodeBlock place.heapPtr i ∈ s.live

theorem initial_exact (place : Placement) : Exact place initial where
  tracked := ⟨heapInit_wellFormed place, by simp [initial]⟩
  root leaf := leaf.1 rfl
  held _ leaf := absurd rfl leaf.1

theorem modest_level (size : Nat) (modest : size ≤ heapSize / 2) :
    size ≤ heapSize ∧ ∃ target, 1 ≤ target ∧ target ≤ heapTreeLevelCnt ∧
      blockSizeFor size = levelBytes target := by
  have fits : size ≤ heapSize := modest.trans (Nat.div_le_self heapSize 2)
  obtain ⟨target, shallow, bytes, half⟩ := blockSizeFor_level size fits
  exact ⟨fits, target, half.mpr modest, shallow, bytes⟩

theorem leaf_unique {place : Placement} {tree : Tree} (wf : WellFormed place tree) (i j : Nat)
    (i_leaf : IsLeaf (tree i)) (j_leaf : IsLeaf (tree j)) (same : tree i = tree j) : i = j := by
  by_contra distinct
  have apart := leaves_apart wf i j i_leaf j_leaf distinct
  have i_bytes : 0 < blockBytes heapAddrLen i := Nat.two_pow_pos _
  have j_bytes : 0 < blockBytes heapAddrLen j := Nat.two_pow_pos _
  rw [wf.address i i_leaf, wf.address j j_leaf] at same
  simp only [Apart, nodeBlock, same] at apart
  omega

theorem candidate_inner {tree : Tree} {level j : Nat} (deep : 1 ≤ level)
    (candidate : Candidate tree level j) : 0 < j := by
  have least := candidate.1.1
  have power := Nat.pow_le_pow_right Nat.two_pos deep
  omega

theorem Grown.exact {place : Placement} {s : State} {size target j : Nat} {after : Tree}
    (before : Exact place s) (deep : 1 ≤ target) (shallow : target ≤ heapTreeLevelCnt)
    (bytes : blockSizeFor size = levelBytes target) (candidate : Candidate s.tree target j)
    (grown : Grown s.tree after j (nodeAddr place.heapPtr j)) :
    Exact place ⟨after, ⟨nodeAddr place.heapPtr j, blockSizeFor size⟩ :: s.live⟩ := by
  have inside := node_bound target j candidate.1 shallow
  have block : nodeBlock place.heapPtr j = ⟨nodeAddr place.heapPtr j, blockSizeFor size⟩ := by
    rw [nodeBlock, bytes, blockBytes_at heapAddrLen target j candidate.1, levelBytes]
  obtain ⟨tracked, _⟩ := grown_tracked before.tracked inside
    (fun i leaf _ above => candidate.2.2 i above leaf) grown
  have root : after 0 = branchNode := grown.marks 0 (root_ancestor j (candidate_inner deep candidate))
  have held : ∀ i, IsLeaf (after i) → nodeBlock place.heapPtr i ∈ nodeBlock place.heapPtr j :: s.live := by
    intro i leaf
    by_cases same : i = j
    · rw [same]
      exact List.mem_cons_self
    · by_cases above : Ancestor i j
      · rw [grown.marks i above] at leaf
        exact absurd leaf leaf_branch
      · rw [grown.keeps i same above] at leaf
        exact List.mem_cons_of_mem _ (before.held i leaf)
  rw [← block]
  exact ⟨tracked, fun leaf => leaf_branch (root ▸ leaf), held⟩

theorem exact_step (place : Placement) (s : State) (call : Call) (after : State)
    (before : Exact place s) (modest : Modest s call) (stepped : step place s call = some after) :
    Exact place after := by
  have shaped := before.tracked.wf.shaped
  cases call with
  | malloc size =>
      obtain ⟨fits, target, deep, shallow, bytes⟩ := modest_level size modest
      rcases malloc_fits place.heapPtr shaped before.root size target fits bytes deep shallow with
        ⟨failed, _⟩ | ⟨j, tree, answer, candidate, _, grown⟩
      · simp only [step, failed, Option.map_some, if_true, Option.some.injEq] at stepped
        rw [← stepped]
        exact before
      · have found := (nodeAddr_leaf place j (node_bound target j candidate.1 shallow)).1
        simp only [step, answer, Option.map_some, if_neg found, Option.some.injEq] at stepped
        rw [← stepped]
        exact grown.exact before deep shallow bytes candidate
  | free ptr =>
      have tracked := tracked_step place s (.free ptr) after before.tracked trivial stepped
      rcases free_step place s shaped ptr with
        ⟨refused, _, absent⟩ | ⟨i, tree, freed, _, _, holds, leaf, released⟩
      · obtain rfl := Option.some.inj (refused.symm.trans stepped)
        refine ⟨tracked, before.root, fun k k_leaf => ?_⟩
        have other : s.tree k ≠ ptr := by
          rcases absent with root | none_holds
          · intro same
            exact before.root (by rw [root, ← same]; exact k_leaf)
          · exact none_holds k k_leaf.1
        rw [before.tracked.wf.address k k_leaf] at other
        exact List.mem_filter.mpr ⟨before.held k k_leaf, decide_eq_true other⟩
      · obtain rfl := Option.some.inj (freed.symm.trans stepped)
        -- no other leaf has the address of the freed one
        have held : ∀ k, IsLeaf (tree k) → nodeBlock place.heapPtr k ∈
            s.live.filter fun block => block.ptr ≠ ptr := by
          intro k k_leaf
          obtain ⟨same, other⟩ := released.taken k k_leaf.1
          rw [same] at k_leaf
          have apart : s.tree k ≠ ptr := fun equal =>
            other (leaf_unique before.tracked.wf k i k_leaf leaf (equal.trans holds.symm))
          rw [before.tracked.wf.address k k_leaf] at apart
          exact List.mem_filter.mpr ⟨before.held k k_leaf, decide_eq_true apart⟩
        have root : ¬ IsLeaf (tree 0) := fun root_leaf => by
          rw [(released.taken 0 root_leaf.1).1] at root_leaf
          exact before.root root_leaf
        exact ⟨tracked, root, held⟩

theorem run_exact (place : Placement) {s : State}
    (reached : Reaches (step place) Modest (· = initial) s) : Exact place s :=
  reached.invariant (Exact place) (by rintro _ rfl; exact initial_exact place) (exact_step place)

theorem nodeAddr_level (heapPtr level j : Nat) (at_level : AtLevel level j)
    (shallow : level ≤ heapTreeLevelCnt) :
    nodeAddr heapPtr j = heapPtr + (j + 1 - 2 ^ level) * levelBytes level := by
  have whole : 2 ^ level * levelBytes level = 2 ^ heapAddrLen := by
    rw [levelBytes, ← pow_add, Nat.add_sub_cancel' (shallow.trans (by decide))]
  rw [nodeAddr, blockStart, blockBytes_at heapAddrLen level j at_level, ← levelBytes,
    Nat.sub_mul, whole]

/-- `malloc` takes the leftmost candidate, at its own address, and marks exactly
the way to it; without a candidate it returns `NULL`. -/
theorem malloc_lowest_fit (place : Placement) (s : State)
    (reached : Reaches (step place) Modest (· = initial) s) (size : Nat)
    (modest : size ≤ heapSize / 2) :
    ∃ d ≤ heapTreeLevelCnt, levelBytes d = max (nextPow2 size) heapSizeMin ∧
      ((∃ k after, Candidate s.tree d k ∧ (∀ other, Candidate s.tree d other → k ≤ other) ∧
          malloc place.heapPtr s.tree size =
            some (after, place.heapPtr + (k + 1 - 2 ^ d) * levelBytes d) ∧
          Grown s.tree after k (place.heapPtr + (k + 1 - 2 ^ d) * levelBytes d)) ∨
        ((¬ ∃ k, Candidate s.tree d k) ∧
          malloc place.heapPtr s.tree size = some (s.tree, null))) := by
  have before := run_exact place reached
  obtain ⟨fits, d, deep, shallow, bytes⟩ := modest_level size modest
  refine ⟨d, shallow, by rw [← bytes, blockSizeFor_max], ?_⟩
  rcases malloc_fits place.heapPtr before.tracked.wf.shaped before.root size d fits bytes deep shallow
    with ⟨failed, absent⟩ | ⟨k, after, answer, candidate, leftmost, grown⟩
  · exact Or.inr ⟨fun ⟨k, candidate⟩ => absent k candidate, failed⟩
  · rw [nodeAddr_level place.heapPtr d k candidate.1 shallow] at answer grown
    exact Or.inl ⟨k, after, candidate, leftmost, answer, grown⟩

/-- The hole is too small, its neighbours are taken: the block behind them is the lowest. -/
theorem malloc_lowest_fit_fragmented :
    ∃ s, exec (step sramPlacement) initial fragmented = some s ∧
      s.live = [⟨0x20001000, 2048⟩, ⟨0x20000E00, 128⟩, ⟨0x20000800, 1024⟩] ∧
      ∃ d k after, levelBytes d = 1024 ∧ Candidate s.tree d k ∧
        (∀ other, Candidate s.tree d other → k ≤ other) ∧
        malloc 0x20000800 s.tree 600 = some (after, 0x20001800) ∧
        Grown s.tree after k 0x20001800 := by
  obtain ⟨s, executed, live, answer⟩ := fragmented_ran
  have begun : Reaches (step sramPlacement) Modest (· = initial) initial := .start rfl
  have reached := exec_reaches fragmented begun (by decide +kernel) executed
  have place : sramPlacement.heapPtr = 0x20000800 := rfl
  have bytes : max (nextPow2 600) heapSizeMin = 1024 := by decide
  obtain ⟨d, _, size, ⟨k, after, candidate, lowest, served, grown⟩ | ⟨_, failed⟩⟩ :=
    malloc_lowest_fit sramPlacement s reached 600 (by decide)
  · rw [place] at served grown
    have address : 0x20000800 + (k + 1 - 2 ^ d) * levelBytes d = 0x20001800 := by
      rw [served] at answer
      exact Option.some.inj answer
    rw [address] at served grown
    exact ⟨s, executed, live, d, k, after, size.trans bytes, candidate, lowest, served, grown⟩
  · rw [place] at failed
    rw [failed] at answer
    exact nomatch answer

theorem Grown.released {tree after : Tree} {j ptr : Nat} (grown : Grown tree after j ptr)
    (shaped : Shaped tree) (open_path : ∀ a, Ancestor a j → ¬ IsLeaf (tree a)) :
    Released after tree j where
  here := grown.vacant
  keeps k other off := (grown.keeps k other off).symm
  ancestors a above := by
    rw [grown.marks a above]
    by_cases empty : tree (left a) = null ∧ tree (right a) = null
    · rw [if_pos empty]
      by_contra taken
      have branch : tree a = branchNode := by
        by_contra other
        exact open_path a above ⟨taken, other⟩
      exact (shaped.branch a branch).elim (· empty.1) (· empty.2)
    · rw [if_neg empty]
      by_contra other
      exact empty (shaped.children_null a other)

/-- With no leaf there is nothing: a branch node would have a leaf below it. -/
theorem no_leaf_null {tree : Tree} (shaped : Shaped tree) (none_left : ∀ i, ¬ IsLeaf (tree i)) (i : Nat) :
    tree i = null := by
  have down : ∀ n i, heapTreeNodeCnt - i ≤ n → tree i = null := by
    intro n
    induction n with
    | zero => exact fun i low => shaped.inside i (by omega)
    | succ n ih =>
        intro i low
        by_contra taken
        have branch : tree i = branchNode := by
          by_contra other
          exact none_left i ⟨taken, other⟩
        have inside := shaped.node_inside i taken
        rcases shaped.branch i branch with used | used
        · exact used (ih (left i) (by unfold left; omega))
        · exact used (ih (right i) (by unfold right; omega))
  exact down _ i le_rfl

theorem free_after_malloc {place : Placement} {s : State} (before : Exact place s) (size : Nat)
    (modest : size ≤ heapSize / 2) (after : Tree) (ptr : Nat)
    (served : malloc place.heapPtr s.tree size = some (after, ptr)) (found : ptr ≠ null) :
    free after ptr = some (s.tree, 0) := by
  have shaped := before.tracked.wf.shaped
  obtain ⟨fits, d, deep, shallow, bytes⟩ := modest_level size modest
  rcases malloc_fits place.heapPtr shaped before.root size d fits bytes deep shallow
    with ⟨failed, _⟩ | ⟨j, tree, answer, candidate, _, grown⟩
  · rw [failed] at served
    cases served
    exact absurd rfl found
  · rw [answer] at served
    cases served
    have inside := node_bound d j candidate.1 shallow
    have leaf := nodeAddr_leaf place j inside
    have wf := grown.wellFormed before.tracked.wf inside
    have undone := grown.released shaped candidate.2.2
    rcases free_cases wf.shaped (nodeAddr place.heapPtr j) with
      ⟨_, root | none_holds⟩ | ⟨i, result, freed, _, holds, i_leaf, released⟩
    · rw [grown.marks 0 (root_ancestor j (candidate_inner deep candidate))] at root
      exact absurd root.symm leaf.2
    · exact absurd grown.here (none_holds j (by rw [grown.here]; exact leaf.1))
    · have same : i = j := leaf_unique wf i j i_leaf (by rw [grown.here]; exact leaf)
        (by rw [holds, grown.here])
      subst same
      rw [freed, released.unique undone]

theorem malloc_from_empty (place : Placement) (size : Nat) (fits : size ≤ heapSize) (tree : Tree)
    (empty : ∀ i, tree i = null) :
    ∃ after ptr, malloc place.heapPtr tree size = some (after, ptr) ∧ ptr ≠ null := by
  have all_null : tree = heapInit := funext empty
  have found : place.heapPtr ≠ null := Nat.ne_of_gt place.above_null
  obtain ⟨target, shallow, bytes, _⟩ := blockSizeFor_level size fits
  by_cases deep : 1 ≤ target
  · obtain ⟨after, answer, _⟩ := malloc_over_root place.heapPtr heapInit_shaped branch_not_null.symm
      size target fits bytes deep shallow
    exact ⟨after, place.heapPtr, by rw [all_null, answer], found⟩
  · have whole : blockSizeFor size = heapSize := by
      rw [bytes, show target = 0 by omega]
      rfl
    have answer := malloc_whole place.heapPtr size tree fits whole
    rw [if_pos (empty 0)] at answer
    exact ⟨_, place.heapPtr, answer, found⟩

/-- `free` undoes `malloc`, and when every block has been given back the tree is
empty again and a block of any size can be had. -/
theorem free_undoes_malloc (place : Placement) (s : State)
    (reached : Reaches (step place) Modest (· = initial) s) :
    (∀ size after ptr, size ≤ heapSize / 2 →
      malloc place.heapPtr s.tree size = some (after, ptr) → ptr ≠ null →
      free after ptr = some (s.tree, 0)) ∧
    (s.live = [] → (∀ i, s.tree i = null) ∧ ∀ size ≤ heapSize,
      ∃ after ptr, malloc place.heapPtr s.tree size = some (after, ptr) ∧ ptr ≠ null) := by
  have before := run_exact place reached
  refine ⟨fun size after ptr modest => free_after_malloc before size modest after ptr,
    fun none_live => ?_⟩
  have empty := no_leaf_null before.tracked.wf.shaped fun i leaf => by
    have member := before.held i leaf
    rw [none_live] at member
    cases member
  exact ⟨empty, fun size fits => malloc_from_empty place size fits s.tree empty⟩

theorem free_undoes_malloc_run :
    ∃ s, exec (step sramPlacement) initial [.malloc 300, .free 0x20000800] = some s ∧
      (∀ i, s.tree i = null) ∧ ∀ size ≤ heapSize,
        ∃ after ptr, malloc sramPlacement.heapPtr s.tree size = some (after, ptr) ∧ ptr ≠ null := by
  obtain ⟨s, executed, none_live⟩ :
      ∃ s ∈ exec (step sramPlacement) initial [.malloc 300, .free 0x20000800], s.live = [] := by
    decide +kernel
  have begun : Reaches (step sramPlacement) Modest (· = initial) initial := .start rfl
  have reached := exec_reaches _ begun (by decide +kernel) executed
  exact ⟨s, executed, (free_undoes_malloc sramPlacement s reached).2 none_live⟩

end MulticoreRtos.Heap
