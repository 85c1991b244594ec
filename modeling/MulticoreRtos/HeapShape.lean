import MulticoreRtos.HeapRuns

/-!
The shape of `heap_tree` over every run of `malloc` and `free`, whatever is
asked for and whatever is passed to `free`. Blocks may overlap after a request
for more than half of the heap, but no branch node is ever left without a child
and no node in use is ever left below a node that is not a branch.
-/

namespace MulticoreRtos.Heap

open DyadicTree Transition

/-- `malloc` takes node `j`. Only the root can be an allocated node above it,
and then the new block has the root's address. -/
structure Allocates (heapPtr : Nat) (tree : Tree) (size : Nat) (after : Tree) (j ptr : Nat) :
    Prop where
  answer : malloc heapPtr tree size = some (after, ptr)
  inside : j < heapTreeNodeCnt
  address : ptr = nodeAddr heapPtr j ∨ ptr = heapPtr
  grown : Grown tree after j ptr
  over_root : ∀ a, Ancestor a j → IsLeaf (tree a) → a = 0 ∧ ptr = heapPtr

section Outcomes
variable (heapPtr : Nat) {tree : Tree} {size : Nat}

theorem outcome_small (shaped : Shaped tree) (target : Nat) (fits : size ≤ heapSize)
    (bytes : blockSizeFor size = levelBytes target) (deep : 1 ≤ target)
    (shallow : target ≤ heapTreeLevelCnt) :
    malloc heapPtr tree size = some (tree, null) ∨
      ∃ after j ptr, Allocates heapPtr tree size after j ptr := by
  by_cases root : IsLeaf (tree 0)
  · right
    obtain ⟨after, answer, grown⟩ := malloc_over_root heapPtr shaped root.2 size target fits bytes
      deep shallow
    refine ⟨after, _, heapPtr, answer, node_bound target _ (first_candidate target).1 shallow,
      Or.inr rfl, grown, fun a _ leaf => ⟨?_, rfl⟩⟩
    by_contra inner
    exact leaf.1 (shaped.below_root_null root.2 a inner)
  · rcases malloc_fits heapPtr shaped root size target fits bytes deep shallow with
      ⟨failed, _⟩ | ⟨j, after, answer, ⟨level, _, open_path⟩, _, grown⟩
    · exact Or.inl failed
    · exact Or.inr ⟨after, j, _, answer, node_bound target j level shallow, Or.inl rfl, grown,
        fun a above leaf => absurd leaf (open_path a above)⟩

theorem half_grown (j : Nat) (half : j = 1 ∨ j = 2) (vacant : tree j = null) :
    Grown tree (Function.update (Function.update tree 0 branchNode) j heapPtr) j heapPtr where
  vacant := vacant
  here := Function.update_self _ _ _
  marks a above := by
    have top : a = 0 := by
      rcases (ancestor_up a j (by omega)).mp above with rfl | higher
      · unfold up
        omega
      · have order := ancestor_lt a (up j) higher
        unfold up at order
        omega
    rw [top, Function.update_of_ne (by omega), Function.update_self]
  keeps k other off := by
    have inner : k ≠ 0 := by
      rintro rfl
      exact off (root_ancestor j (by omega))
    rw [Function.update_of_ne other, Function.update_of_ne inner]

theorem outcome_whole (shaped : Shaped tree) (fits : size ≤ heapSize)
    (bytes : blockSizeFor size = heapSize) :
    malloc heapPtr tree size = some (tree, null) ∨
      ∃ after j ptr, Allocates heapPtr tree size after j ptr := by
  have answer := malloc_whole heapPtr size tree fits bytes
  have from_half : ∀ j, j = 1 ∨ j = 2 → tree j = null →
      malloc heapPtr tree size =
        some (Function.update (Function.update tree 0 branchNode) j heapPtr, heapPtr) →
      ∃ after j ptr, Allocates heapPtr tree size after j ptr := by
    intro j half empty served
    refine ⟨_, j, heapPtr, served, by rw [node_count]; omega, Or.inr rfl,
      half_grown heapPtr j half empty, fun a above _ => ⟨?_, rfl⟩⟩
    have order := ancestor_lt a j above
    rcases (ancestor_up a j (by omega)).mp above with rfl | higher
    · unfold up
      omega
    · have upper := ancestor_lt a (up j) higher
      unfold up at upper
      omega
  by_cases vacant : tree 0 = null
  · rw [if_pos vacant] at answer
    exact Or.inr ⟨_, 0, heapPtr, answer, by decide, Or.inr rfl, whole_grown tree heapPtr vacant,
      fun a above => absurd (ancestor_lt a 0 above) (Nat.not_lt_zero a)⟩
  · rw [if_neg vacant] at answer
    by_cases first : tree 1 = null
    · rw [if_pos first] at answer
      exact Or.inr (from_half 1 (Or.inl rfl) first answer)
    · rw [if_neg first] at answer
      by_cases second : tree 2 = null
      · rw [if_pos second] at answer
        exact Or.inr (from_half 2 (Or.inr rfl) second answer)
      · left
        rw [if_neg second] at answer
        rw [answer, ← shaped.parent 1 Nat.one_pos first, show up 1 = 0 from rfl,
          Function.update_eq_self]

theorem malloc_cases (shaped : Shaped tree) (size : Nat) :
    malloc heapPtr tree size = some (tree, null) ∨
      ∃ after j ptr, Allocates heapPtr tree size after j ptr := by
  by_cases large : heapSize < size
  · exact Or.inl (by rw [malloc, if_pos large])
  · have fits := Nat.not_lt.mp large
    obtain ⟨target, shallow, bytes, _⟩ := blockSizeFor_level size fits
    by_cases deep : 1 ≤ target
    · exact outcome_small heapPtr shaped target fits bytes deep shallow
    · apply outcome_whole heapPtr shaped fits
      rw [bytes, show target = 0 by omega]
      rfl

end Outcomes

theorem Allocates.leaf {place : Placement} {tree after : Tree} {size j ptr : Nat}
    (taken : Allocates place.heapPtr tree size after j ptr) : IsLeaf ptr := by
  rcases taken.address with same | same
  · rw [same]
    exact nodeAddr_leaf place j taken.inside
  · rw [same, ← nodeAddr_root place.heapPtr]
    exact nodeAddr_leaf place 0 (by decide)

section Steps
variable (place : Placement) (s : State)

theorem malloc_step (shaped : Shaped s.tree) (size : Nat) :
    step place s (.malloc size) = some s ∨
    ∃ after j ptr, Allocates place.heapPtr s.tree size after j ptr ∧
      step place s (.malloc size) = some ⟨after, ⟨ptr, blockSizeFor size⟩ :: s.live⟩ := by
  rcases malloc_cases place.heapPtr shaped size with failed | ⟨after, j, ptr, taken⟩
  · exact Or.inl (by simp only [step, failed, Option.map_some, if_true])
  · exact Or.inr ⟨after, j, ptr, taken,
      by simp only [step, taken.answer, Option.map_some, if_neg taken.leaf.1]⟩

theorem free_step (shaped : Shaped s.tree) (ptr : Nat) :
    (step place s (.free ptr) = some ⟨s.tree, s.live.filter fun block => block.ptr ≠ ptr⟩ ∧
      free s.tree ptr = some (s.tree, 1) ∧
      (s.tree 0 = ptr ∨ ∀ k, s.tree k ≠ null → s.tree k ≠ ptr)) ∨
    ∃ i after, step place s (.free ptr) =
        some ⟨after, s.live.filter fun block => block.ptr ≠ ptr⟩ ∧
      free s.tree ptr = some (after, 0) ∧ i ≠ 0 ∧ s.tree i = ptr ∧ IsLeaf (s.tree i) ∧
      Released s.tree after i := by
  rcases free_cases shaped ptr with ⟨refused, absent⟩ | ⟨i, after, freed, rest⟩
  · exact Or.inl ⟨by simp only [step, refused, Option.map_some], refused, absent⟩
  · exact Or.inr ⟨i, after, by simp only [step, freed, Option.map_some], freed, rest⟩

theorem shaped_step (call : Call) (after : State) (shaped : Shaped s.tree)
    (stepped : step place s call = some after) : Shaped after.tree := by
  cases call with
  | malloc size =>
      rcases malloc_step place s shaped size with failed | ⟨tree, j, ptr, taken, served⟩
      · obtain rfl := Option.some.inj (failed.symm.trans stepped)
        exact shaped
      · obtain rfl := Option.some.inj (served.symm.trans stepped)
        exact taken.grown.shaped shaped taken.leaf taken.inside
  | free ptr =>
      rcases free_step place s shaped ptr with ⟨refused, _⟩ | ⟨i, tree, freed, _, _, _, leaf, released⟩
      · obtain rfl := Option.some.inj (refused.symm.trans stepped)
        exact shaped
      · obtain rfl := Option.some.inj (freed.symm.trans stepped)
        exact released.shaped shaped leaf

/-- Neither call faults or loops, whatever it is given. -/
theorem step_completes (shaped : Shaped s.tree) (call : Call) :
    ∃ after, step place s call = some after := by
  cases call with
  | malloc size =>
      rcases malloc_step place s shaped size with failed | ⟨tree, j, ptr, taken, served⟩
      · exact ⟨_, failed⟩
      · exact ⟨_, served⟩
  | free ptr =>
      rcases free_step place s shaped ptr with ⟨refused, _⟩ | ⟨i, tree, freed, _⟩
      · exact ⟨_, refused⟩
      · exact ⟨_, freed⟩

end Steps

theorem run_shaped (place : Placement) {s : State}
    (reached : Reaches (step place) Transition.free (· = initial) s) : Shaped s.tree :=
  reached.invariant (fun s => Shaped s.tree) (by rintro _ rfl; exact heapInit_shaped)
    fun before call after shaped _ => shaped_step place before call after shaped

theorem bottom_not_branch {tree : Tree} (shaped : Shaped tree) (i : Nat) (bottom : 1023 ≤ i) :
    tree i ≠ branchNode := by
  intro marked
  have beyond : heapTreeNodeCnt ≤ left i ∧ heapTreeNodeCnt ≤ right i := by
    rw [node_count]
    unfold left right
    omega
  rcases shaped.branch i marked with used | used
  · exact used (shaped.inside _ beyond.1)
  · exact used (shaped.inside _ beyond.2)

/-- Every call of every run completes, and after each of them `heap_tree` has
its shape. -/
theorem shape_along_runs (place : Placement) (s : State)
    (reached : Reaches (step place) Transition.free (· = initial) s) :
    (∀ call, ∃ after, step place s call = some after) ∧
    (∀ i, i ≠ 0 → s.tree i ≠ null → s.tree (up i) = branchNode) ∧
    (∀ i, s.tree i = branchNode → s.tree (left i) ≠ null ∨ s.tree (right i) ≠ null) ∧
    (∀ i, 1023 ≤ i → i ≤ 2046 → s.tree i ≠ branchNode) ∧
    (∀ a i, s.tree a ≠ branchNode → Ancestor a i → s.tree i = null) ∧
    (s.tree 0 = null ↔ ∀ i, s.tree i = null) := by
  have shaped := run_shaped place reached
  refine ⟨step_completes place s shaped, fun i inner => shaped.parent i (Nat.pos_of_ne_zero inner),
    shaped.branch, fun i bottom _ => bottom_not_branch shaped i bottom, shaped.below_null,
    fun empty i => ?_, fun none => none 0⟩
  by_cases top : i = 0
  · rw [top, empty]
  · exact shaped.below_root_null (by rw [empty]; exact branch_not_null.symm) i top

theorem shape_after_overlap :
    ∃ s, exec (step sramPlacement) initial [.malloc 131072, .malloc 131072] = some s ∧
      (s.tree 0 = null ↔ ∀ i, s.tree i = null) := by
  obtain ⟨s, executed⟩ :
      ∃ s, exec (step sramPlacement) initial [.malloc 131072, .malloc 131072] = some s := ⟨_, rfl⟩
  have begun : Reaches (step sramPlacement) Transition.free (· = initial) initial := .start rfl
  have reached := exec_reaches _ begun (allowed_free _ _ _) executed
  exact ⟨s, executed, (shape_along_runs sramPlacement s reached).2.2.2.2.2⟩

/-- The branch marks of a search that finds nothing were there before it. -/
theorem failed_malloc_changes_nothing (place : Placement) (s : State)
    (reached : Reaches (step place) Transition.free (· = initial) s) (size : Nat) :
    ∃ after ptr, malloc place.heapPtr s.tree size = some (after, ptr) ∧
      (ptr = null → ∀ i, after i = s.tree i) := by
  rcases malloc_cases place.heapPtr (run_shaped place reached) size with
    failed | ⟨after, j, ptr, taken⟩
  · exact ⟨s.tree, null, failed, fun _ _ => rfl⟩
  · exact ⟨after, ptr, taken.answer, fun none_found => absurd none_found taken.leaf.1⟩

theorem full_heap_unchanged :
    ∃ s, exec (step sramPlacement) initial [.malloc 65536, .malloc 65536] = some s ∧
      ∃ after, malloc sramPlacement.heapPtr s.tree 100 = some (after, null) ∧
        ∀ i, after i = s.tree i := by
  obtain ⟨s, executed, refused⟩ :
      ∃ s ∈ exec (step sramPlacement) initial [.malloc 65536, .malloc 65536],
        (malloc sramPlacement.heapPtr s.tree 100).map Prod.snd = some null := by
    decide +kernel
  have begun : Reaches (step sramPlacement) Transition.free (· = initial) initial := .start rfl
  have reached := exec_reaches _ begun (allowed_free _ _ _) executed
  obtain ⟨after, ptr, answer, kept⟩ := failed_malloc_changes_nothing sramPlacement s reached 100
  rw [answer] at refused
  obtain rfl : ptr = null := Option.some.inj refused
  exact ⟨s, executed, after, answer, kept rfl⟩

end MulticoreRtos.Heap
