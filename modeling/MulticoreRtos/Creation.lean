import MulticoreRtos.HeapUndo
import MulticoreRtos.PeriodicAlarm
import MulticoreRtos.SerializedRuns

/-!
The exits of `add_thread` and `add_periodic_task`. Each call masks interrupts and
takes a spinlock, and has to give both back and to undo what it has allocated,
whichever way it leaves. The calls are taken with `heap_lock` free and nobody
blocked on it, so that `b_wait` and `b_signal` inside `malloc` leave no trace.
-/

namespace MulticoreRtos.Creation

open Scheduler Serialized PeriodicQueue Transition LinkedList
open Heap (null IsLeaf Candidate heapSize heapTreeLevelCnt)

inductive Lock where
  | scheduler
  | bgScheduler
  deriving DecidableEq

/-- What the two cores share, with the holders of the spinlocks and each core's
`PRIMASK`. -/
structure Station (Sem Task : Type) where
  kernel : Kernel Sem
  heap : Heap.State
  background : Background Task
  owner : Lock → Option Core
  primask : Core → Bool

variable {Sem Task : Type}

namespace Station

def startCritical (s : Station Sem Task) (cpu : Core) : Station Sem Task :=
  { s with primask := Function.update s.primask cpu true }

def endCritical (s : Station Sem Task) (cpu : Core) (primask : Bool) : Station Sem Task :=
  { s with primask := Function.update s.primask cpu primask }

/-- `lock` spins while somebody holds the lock, the caller included. -/
def lock (s : Station Sem Task) (cpu : Core) (l : Lock) : Option (Station Sem Task) :=
  if s.owner l = none then some { s with owner := Function.update s.owner l (some cpu) } else none

def unlock (s : Station Sem Task) (l : Lock) : Station Sem Task :=
  { s with owner := Function.update s.owner l none }

end Station

def addThread (place : Heap.Placement) (s : Station Sem Task) (cpu : Core)
    (stackSize priority : Nat) : Option (Station Sem Task × Nat) := do
  let primask := s.primask cpu
  let s ← (s.startCritical cpu).lock cpu .scheduler
  -- this return leaves the lock and the mask as they are
  if priorityLvlCnt ≤ priority then some (s, 1)
  else
    let (heap, newtcb) ← allocate place s.heap sizeofTcb
    let s := { s with heap }
    if newtcb = null then some ((s.unlock .scheduler).endCritical cpu primask, 1)
    else
      let (heap, stack) ← allocate place s.heap stackSize
      let s := { s with heap }
      if stack = null then
        let heap ← Heap.step place s.heap (.free newtcb)
        let s := { s with heap }
        some ((s.unlock .scheduler).endCritical cpu primask, 1)
      else
        let s := { s with
          kernel := Scheduler.addThread s.kernel newtcb stack stackSize priority }
        some ((s.unlock .scheduler).endCritical cpu primask, 0)

def sizeofBgt : Nat := 20

/-- `add_periodic_task`, which returns 1 or, at its end, no value. -/
def addPeriodicTask (place : Heap.Placement) (fuel : Nat) (s : Station Sem Task) (cpu : Core)
    (task : Task) (period now : Nat) : Option (Station Sem Task × Option Nat) := do
  let primask := s.primask cpu
  let s ← (s.startCritical cpu).lock cpu .bgScheduler
  let (heap, bgthread) ← allocate place s.heap sizeofBgt
  let (background, answer) ←
    PeriodicQueue.addPeriodicTask fuel s.background bgthread task period now
  let s := { s with heap, background }
  -- so does this one
  if bgthread = null then some (s, answer)
  else some ((s.unlock .bgScheduler).endCritical cpu primask, answer)

/-! What a caller relies on -/

structure Balanced (s s' : Station Sem Task) (cpu : Core) (l : Lock) : Prop where
  released : s'.owner l ≠ some cpu
  primask : s'.primask cpu = s.primask cpu

structure Untouched (s s' : Station Sem Task) : Prop where
  kernel : s'.kernel = s.kernel
  background : s'.background = s.background
  tree : s'.heap.tree = s.heap.tree

def AddThreadOk (place : Heap.Placement) (s : Station Sem Task) (cpu : Core)
    (stackSize priority : Nat) : Prop :=
  ∃ s' answer, addThread place s cpu stackSize priority = some (s', answer) ∧
    Balanced s s' cpu .scheduler ∧ (answer = 1 → Untouched s s')

/-- On a broken ring the walk of `add_periodic_task` need not end. -/
def AddPeriodicTaskOk (place : Heap.Placement) (s : Station Sem Task) (cpu : Core) (task : Task)
    (period now : Nat) : Prop :=
  ∀ fuel s' answer, addPeriodicTask place fuel s cpu task period now = some (s', answer) →
    Balanced s s' cpu .bgScheduler ∧ (answer = some 1 → Untouched s s')

structure Circular (b : Background Task) (nodes : List Nat) : Prop where
  ring : Ring null b.next b.prev b.root nodes
  distinct : nodes.Nodup

/-! Blocks -/

variable {place : Heap.Placement} {s s' : Station Sem Task} {cpu : Core}

theorem allocate_eq {tree next : Heap.Tree} {size ptr : Nat} (live : List Heap.Block)
    (answer : Heap.malloc place.heapPtr tree size = some (next, ptr)) :
    ∃ blocks, allocate place ⟨tree, live⟩ size = some (⟨next, blocks⟩, ptr) := by
  refine ⟨if ptr = null then live else ⟨ptr, Heap.blockSizeFor size⟩ :: live, ?_⟩
  simp [allocate, Heap.step, answer]

theorem release_eq (place : Heap.Placement) {tree next : Heap.Tree} {ptr answer : Nat}
    (live : List Heap.Block) (freed : Heap.free tree ptr = some (next, answer)) :
    ∃ blocks, Heap.step place ⟨tree, live⟩ (.free ptr) = some ⟨next, blocks⟩ :=
  ⟨live.filter fun block => block.ptr ≠ ptr, by simp [Heap.step, freed]⟩

theorem least_block {size : Nat} (least : size = sizeofTcb ∨ size = sizeofBgt) :
    size ≤ heapSize ∧ Heap.blockSizeFor size = Heap.levelBytes heapTreeLevelCnt := by
  rcases least with rfl | rfl <;> decide

theorem least_outcome (place : Heap.Placement) {heap : Heap.State}
    (shaped : Heap.Shaped heap.tree) {size : Nat} (least : size = sizeofTcb ∨ size = sizeofBgt) :
    (IsLeaf (heap.tree 0) ∧ ∃ tree live,
        allocate place heap size = some (⟨tree, live⟩, place.heapPtr) ∧
        Heap.Grown heap.tree tree (2 ^ heapTreeLevelCnt - 1) place.heapPtr) ∨
      (¬ IsLeaf (heap.tree 0) ∧ (¬ ∃ k, Candidate heap.tree heapTreeLevelCnt k) ∧
        ∃ live, allocate place heap size = some (⟨heap.tree, live⟩, null)) ∨
      ¬ IsLeaf (heap.tree 0) ∧ ∃ tree live j,
        allocate place heap size = some (⟨tree, live⟩, Heap.nodeAddr place.heapPtr j) ∧
        Candidate heap.tree heapTreeLevelCnt j ∧
        Heap.Grown heap.tree tree j (Heap.nodeAddr place.heapPtr j) := by
  obtain ⟨fits, bytes⟩ := least_block least
  have deep : 1 ≤ heapTreeLevelCnt := by decide
  by_cases root : IsLeaf (heap.tree 0)
  · obtain ⟨tree, answer, grown⟩ := Heap.malloc_over_root place.heapPtr shaped root.2 size _ fits
      bytes deep le_rfl
    obtain ⟨live, served⟩ := allocate_eq heap.live answer
    exact Or.inl ⟨root, tree, live, served, grown⟩
  · rcases Heap.malloc_fits place.heapPtr shaped root size _ fits bytes deep le_rfl with
      ⟨failed, none_left⟩ | ⟨j, tree, answer, candidate, _, grown⟩
    · obtain ⟨live, refused⟩ := allocate_eq heap.live failed
      exact Or.inr (Or.inl ⟨root, not_exists.mpr none_left, live, refused⟩)
    · obtain ⟨live, served⟩ := allocate_eq heap.live answer
      exact Or.inr (Or.inr ⟨root, tree, live, j, served, candidate, grown⟩)

/-! The exits -/

def Station.entered (s : Station Sem Task) (cpu : Core) (l : Lock) : Station Sem Task :=
  { s.startCritical cpu with owner := Function.update s.owner l (some cpu) }

@[simp] theorem Station.entered_kernel (s : Station Sem Task) (cpu : Core) (l : Lock) :
    (s.entered cpu l).kernel = s.kernel := rfl

@[simp] theorem Station.entered_heap (s : Station Sem Task) (cpu : Core) (l : Lock) :
    (s.entered cpu l).heap = s.heap := rfl

@[simp] theorem Station.entered_background (s : Station Sem Task) (cpu : Core) (l : Lock) :
    (s.entered cpu l).background = s.background := rfl

theorem lock_free {l : Lock} (unlocked : s.owner l = none) :
    (s.startCritical cpu).lock cpu l = some (s.entered cpu l) :=
  if_pos unlocked

theorem leave_balanced (s t : Station Sem Task) (cpu : Core) (l : Lock) :
    Balanced s ((t.unlock l).endCritical cpu (s.primask cpu)) cpu l := by
  constructor
  · simp [Station.endCritical, Station.unlock]
  · simp [Station.endCritical]

theorem held_unbalanced {t : Station Sem Task} {l : Lock}
    (held : t.owner l = (s.entered cpu l).owner l) : ¬ Balanced s t cpu l := by
  intro balanced
  refine balanced.released (held.trans ?_)
  exact Function.update_self _ _ _

theorem bad_priority (unlocked : s.owner .scheduler = none) (stackSize : Nat) {priority : Nat}
    (large : priorityLvlCnt ≤ priority) : ¬ AddThreadOk place s cpu stackSize priority := by
  rintro ⟨s', answer, called, balanced, _⟩
  have left : addThread place s cpu stackSize priority = some (s.entered cpu .scheduler, 1) := by
    simp [addThread, lock_free unlocked, large]
  obtain ⟨rfl, _⟩ := Prod.mk.inj (Option.some.inj (left.symm.trans called))
  exact held_unbalanced rfl balanced

theorem addThread_refused (unlocked : s.owner .scheduler = none) (stackSize : Nat) {priority : Nat}
    (bounded : priority < priorityLvlCnt) {live : List Heap.Block}
    (refused : allocate place s.heap sizeofTcb = some (⟨s.heap.tree, live⟩, null)) :
    AddThreadOk place s cpu stackSize priority := by
  have called : addThread place s cpu stackSize priority =
      some (({ s.entered cpu .scheduler with heap := ⟨s.heap.tree, live⟩ }.unlock
        .scheduler).endCritical cpu (s.primask cpu), 1) := by
    simp [addThread, lock_free unlocked, Nat.not_le.mpr bounded, refused]
  exact ⟨_, 1, called, leave_balanced s _ cpu .scheduler, fun _ => ⟨rfl, rfl, rfl⟩⟩

section SecondRequest
variable {stackSize priority newtcb stack : Nat} {tree next : Heap.Tree} {live : List Heap.Block}

theorem addThread_created (unlocked : s.owner .scheduler = none)
    (bounded : priority < priorityLvlCnt)
    (first : allocate place s.heap sizeofTcb = some (⟨tree, live⟩, newtcb)) (found : newtcb ≠ null)
    (second : Heap.malloc place.heapPtr tree stackSize = some (next, stack))
    (there : stack ≠ null) : AddThreadOk place s cpu stackSize priority := by
  obtain ⟨blocks, again⟩ := allocate_eq live second
  have called : addThread place s cpu stackSize priority =
      some (({ s.entered cpu .scheduler with
        heap := ⟨next, blocks⟩
        kernel := Scheduler.addThread s.kernel newtcb stack stackSize priority }.unlock
          .scheduler).endCritical cpu (s.primask cpu), 0) := by
    simp [addThread, lock_free unlocked, Nat.not_le.mpr bounded, first, found, again, there]
  exact ⟨_, 0, called, leave_balanced s _ cpu .scheduler, by simp⟩

theorem addThread_undone (unlocked : s.owner .scheduler = none)
    (bounded : priority < priorityLvlCnt)
    (first : allocate place s.heap sizeofTcb = some (⟨tree, live⟩, newtcb)) (found : newtcb ≠ null)
    (second : Heap.malloc place.heapPtr tree stackSize = some (next, null))
    {last : Heap.Tree} {answer : Nat} (freed : Heap.free next newtcb = some (last, answer)) :
    AddThreadOk place s cpu stackSize priority ↔ last = s.heap.tree := by
  obtain ⟨blocks, again⟩ := allocate_eq live second
  obtain ⟨left, released⟩ := release_eq place blocks freed
  have called : addThread place s cpu stackSize priority =
      some (({ s.entered cpu .scheduler with heap := ⟨last, left⟩ }.unlock
        .scheduler).endCritical cpu (s.primask cpu), 1) := by
    simp [addThread, lock_free unlocked, Nat.not_le.mpr bounded, first, found, again, released]
  constructor
  · rintro ⟨s', result, same, _, untouched⟩
    obtain ⟨rfl, rfl⟩ := Prod.mk.inj (Option.some.inj (called.symm.trans same))
    exact (untouched rfl).tree
  · rintro rfl
    exact ⟨_, 1, called, leave_balanced s _ cpu .scheduler, fun _ => ⟨rfl, rfl, rfl⟩⟩

end SecondRequest

section Requests
variable {stackSize priority : Nat}

theorem addThread_candidate (unlocked : s.owner .scheduler = none)
    (bounded : priority < priorityLvlCnt) (shaped : Heap.Shaped s.heap.tree)
    (addressed : Heap.Addressed place.heapPtr s.heap.tree) {tree : Heap.Tree}
    {live : List Heap.Block} {j : Nat}
    (first : allocate place s.heap sizeofTcb = some (⟨tree, live⟩, Heap.nodeAddr place.heapPtr j))
    (candidate : Candidate s.heap.tree heapTreeLevelCnt j)
    (grown : Heap.Grown s.heap.tree tree j (Heap.nodeAddr place.heapPtr j)) :
    AddThreadOk place s cpu stackSize priority := by
  have deep : 1 ≤ heapTreeLevelCnt := by decide
  have inside := Heap.node_bound _ j candidate.1 le_rfl
  have leaf := Heap.nodeAddr_leaf place j inside
  rcases Heap.malloc_cases place.heapPtr (grown.shaped shaped leaf inside) stackSize with
    refused | ⟨next, k, stack, taken⟩
  · have undone := Heap.free_new_block shaped addressed candidate deep le_rfl grown
    exact (addThread_undone unlocked bounded first leaf.1 refused undone).mpr rfl
  · exact addThread_created unlocked bounded first leaf.1 taken.answer taken.leaf.1

/-- The TCB overwrites the mark of the block that is the whole heap. A failing
request for the stack then leaves the tree without that block. -/
theorem addThread_over_root (unlocked : s.owner .scheduler = none)
    (bounded : priority < priorityLvlCnt) (shaped : Heap.Shaped s.heap.tree)
    (root : IsLeaf (s.heap.tree 0)) {tree : Heap.Tree} {live : List Heap.Block}
    (first : allocate place s.heap sizeofTcb = some (⟨tree, live⟩, place.heapPtr))
    (grown : Heap.Grown s.heap.tree tree (2 ^ heapTreeLevelCnt - 1) place.heapPtr) :
    AddThreadOk place s cpu stackSize priority ↔ stackSize ≤ heapSize := by
  have deep : 1 ≤ heapTreeLevelCnt := by decide
  have found : place.heapPtr ≠ null := Nat.ne_of_gt place.above_null
  by_cases fits : stackSize ≤ heapSize
  · obtain ⟨next, stack, second, there⟩ :=
      Heap.served_after_over_root shaped root.2 deep le_rfl grown fits
    exact iff_of_true (addThread_created unlocked bounded first found second there) fits
  · have leaf : IsLeaf place.heapPtr := by
      rw [← Heap.nodeAddr_root place.heapPtr]
      exact Heap.nodeAddr_leaf place 0 (by decide)
    have inside := Heap.node_bound _ _ (Heap.first_candidate heapTreeLevelCnt).1 le_rfl
    have after := grown.shaped shaped leaf inside
    have marked : ¬ IsLeaf (tree 0) := by
      rw [grown.marks 0 (DyadicTree.root_ancestor _ (by decide))]
      exact Heap.leaf_branch
    have refused : Heap.malloc place.heapPtr tree stackSize = some (tree, null) :=
      if_pos (Nat.not_le.mp fits)
    obtain ⟨last, answer, freed⟩ : ∃ last answer,
        Heap.free tree place.heapPtr = some (last, answer) := by
      rcases Heap.free_cases after place.heapPtr with ⟨kept, _⟩ | ⟨_, result, released, _⟩
      · exact ⟨_, _, kept⟩
      · exact ⟨_, _, released⟩
    rw [addThread_undone unlocked bounded first found refused freed]
    refine iff_of_false ?_ fits
    rintro rfl
    exact Heap.free_root after marked freed root

end Requests

section Periodic
variable {task : Task} {period now bgthread : Nat} {tree : Heap.Tree} {live : List Heap.Block}

theorem periodic_refused (unlocked : s.owner .bgScheduler = none)
    (first : allocate place s.heap sizeofBgt = some (⟨tree, live⟩, null)) :
    ¬ AddPeriodicTaskOk place s cpu task period now := by
  intro ok
  have called : addPeriodicTask place 0 s cpu task period now =
      some ({ s.entered cpu .bgScheduler with heap := ⟨tree, live⟩ }, some 1) := by
    simp [addPeriodicTask, lock_free unlocked, first, PeriodicQueue.addPeriodicTask]
  refine absurd (ok 0 _ _ called).1 (held_unbalanced ?_)
  rfl

theorem no_answer {fuel : Nat} {b after : Background Task} {answer : Option Nat}
    (found : bgthread ≠ null) (called :
      PeriodicQueue.addPeriodicTask fuel b bgthread task period now = some (after, answer)) :
    answer = none := by
  rw [PeriodicQueue.addPeriodicTask, if_neg found] at called
  dsimp only at called
  split at called
  · exact (Prod.mk.inj (Option.some.inj called)).2.symm
  · split at called
    · exact (Prod.mk.inj (Option.some.inj called)).2.symm
    · obtain ⟨node, _, same⟩ := Option.map_eq_some_iff.mp called
      exact (Prod.mk.inj same).2.symm

theorem walk_ends {fuel : Nat} {b : Background Task} {nodes : List Nat}
    (circular : Circular b nodes) (enough : nodes.length ≤ fuel) (task : Task)
    (period now bgthread : Nat) :
    ∃ result, PeriodicQueue.addPeriodicTask fuel b bgthread task period now = some result := by
  by_cases absent : bgthread = null
  · exact ⟨_, if_pos absent⟩
  rw [PeriodicQueue.addPeriodicTask, if_neg absent]
  have there : (fillIn b bgthread task period now).root = b.root := rfl
  by_cases empty : b.root = null
  · exact ⟨_, if_pos empty⟩
  obtain ⟨root, rest, rfl⟩ := List.exists_cons_of_ne_nil fun none_yet =>
    empty (circular.ring.null_iff.mpr none_yet)
  have first : b.root = root := circular.ring.1
  simp only [there, if_neg empty]
  split
  · exact ⟨_, rfl⟩
  · obtain ⟨before, after, _, point, _⟩ :=
      insertionPoint_spec (fillIn b bgthread task period now) bgthread rest fuel b.root
        (first ▸ circular.ring.2.2) (first ▸ (List.nodup_cons.mp circular.distinct).1) enough
    exact ⟨_, congrArg (Option.map _) point⟩

theorem periodic_created (unlocked : s.owner .bgScheduler = none)
    (first : allocate place s.heap sizeofBgt = some (⟨tree, live⟩, bgthread))
    (found : bgthread ≠ null) : AddPeriodicTaskOk place s cpu task period now := by
  intro fuel s' answer called
  simp only [addPeriodicTask, lock_free unlocked, Option.bind_eq_bind, Option.bind_some,
    Station.entered_heap, first, Option.bind_eq_some_iff, Prod.exists, if_neg found] at called
  obtain ⟨background, result, queued, left⟩ := called
  obtain ⟨rfl, rfl⟩ := Prod.mk.inj (Option.some.inj left)
  refine ⟨leave_balanced s _ cpu .bgScheduler, fun failed => ?_⟩
  rw [no_answer found queued] at failed
  cases failed

theorem periodic_returns (unlocked : s.owner .bgScheduler = none)
    (first : allocate place s.heap sizeofBgt = some (⟨tree, live⟩, bgthread)) {nodes : List Nat}
    (circular : Circular s.background nodes) {fuel : Nat} (enough : nodes.length ≤ fuel) :
    ∃ s' answer, addPeriodicTask place fuel s cpu task period now = some (s', answer) := by
  obtain ⟨⟨background, result⟩, queued⟩ := walk_ends circular enough task period now bgthread
  simp only [addPeriodicTask, lock_free unlocked, Option.bind_eq_bind, Option.bind_some,
    Station.entered_heap, Station.entered_background, first, queued]
  split
  · exact ⟨_, _, rfl⟩
  · exact ⟨_, _, rfl⟩

end Periodic

def Station.scheduler (s : Station Sem Task) : Kernel Sem × Heap.State :=
  ({ s.kernel with schedulerHeld := (s.owner .scheduler).isSome }, s.heap)

theorem left_scheduler (t : Station Sem Task) (cpu : Core) (primask : Bool)
    (never : t.kernel.schedulerHeld = false) :
    ((t.unlock .scheduler).endCritical cpu primask).scheduler = (t.kernel, t.heap) := by
  have kept : ({ t.kernel with schedulerHeld := false } : Kernel Sem) = t.kernel := by
    rw [← never]
  rw [Station.scheduler, ← kept]
  simp [Station.endCritical, Station.unlock]

/-- The call is the one of the model of the scheduler, in which a return under
`SCHEDULER` only leaves a mark. -/
theorem addThread_serialized (layout : Layout Sem) {m : Machine Sem}
    (same_kernel : m.kernel = s.kernel) (same_heap : m.heap = s.heap)
    (unlocked : s.owner .scheduler = none) (never : s.kernel.schedulerHeld = false)
    (stackSize priority : Nat) :
    (addThread layout.place s cpu stackSize priority).map (fun result => result.1.scheduler) =
      (Serialized.addThread layout m stackSize priority).map fun m => (m.kernel, m.heap) := by
  unfold Serialized.addThread addThread
  simp only [same_kernel, same_heap, lock_free unlocked, Option.bind_eq_bind, Option.bind_some,
    Station.entered_heap, Station.entered_kernel]
  by_cases large : priorityLvlCnt ≤ priority
  · simp [large, Station.scheduler, Station.entered, Station.startCritical]
  · simp only [if_neg large]
    cases allocate layout.place s.heap sizeofTcb with
    | none => rfl
    | some first =>
        simp only [Option.bind_some]
        split
        · exact congrArg some (left_scheduler _ _ _ never)
        · cases allocate layout.place first.1 stackSize with
          | none => rfl
          | some second =>
              simp only [Option.bind_some]
              split
              · cases Heap.step layout.place second.1 (.free first.2) with
                | none => rfl
                | some heap => exact congrArg some (left_scheduler _ _ _ never)
              · exact congrArg some (left_scheduler _ _ _ never)

/-- `add_thread` gives back what it has taken exactly when the priority is one of
the run queues' and not both one block is the whole heap and the stack exceeds
it, `add_periodic_task` exactly when its node is served. -/
theorem creation_ok_iff
    (reached : Reaches (Heap.step place) Transition.free (· = Heap.initial) s.heap) (cpu : Core) :
    (s.owner .scheduler = none → ∀ stackSize priority,
      (AddThreadOk place s cpu stackSize priority ↔
        priority < priorityLvlCnt ∧ ¬ (IsLeaf (s.heap.tree 0) ∧ heapSize < stackSize))) ∧
    (s.owner .bgScheduler = none → ∀ task period now,
      (AddPeriodicTaskOk place s cpu task period now ↔
        IsLeaf (s.heap.tree 0) ∨ ∃ k, Candidate s.heap.tree heapTreeLevelCnt k) ∧
      ∀ nodes fuel, Circular s.background nodes → nodes.length ≤ fuel →
        ∃ s' answer, addPeriodicTask place fuel s cpu task period now = some (s', answer)) := by
  obtain ⟨shaped, addressed⟩ := Heap.run_addressed place reached
  have found : place.heapPtr ≠ null := Nat.ne_of_gt place.above_null
  constructor
  · intro unlocked stackSize priority
    by_cases bounded : priority < priorityLvlCnt
    · rcases least_outcome place shaped (Or.inl rfl) with
        ⟨root, tree, live, first, grown⟩ | ⟨inner, _, live, refused⟩ |
          ⟨inner, tree, live, j, first, candidate, grown⟩
      · rw [addThread_over_root unlocked bounded shaped root first grown]
        exact ⟨fun fits => ⟨bounded, fun both => Nat.not_lt.mpr fits both.2⟩,
          fun ok => Nat.not_lt.mp fun large => ok.2 ⟨root, large⟩⟩
      · exact iff_of_true (addThread_refused unlocked stackSize bounded refused)
          ⟨bounded, fun both => inner both.1⟩
      · exact iff_of_true
          (addThread_candidate unlocked bounded shaped addressed first candidate grown)
          ⟨bounded, fun both => inner both.1⟩
    · exact iff_of_false (bad_priority unlocked stackSize (Nat.not_lt.mp bounded))
        fun ok => bounded ok.1
  · intro unlocked task period now
    rcases least_outcome place shaped (Or.inr rfl) with
      ⟨root, tree, live, first, _⟩ | ⟨inner, none_left, live, first⟩ |
        ⟨_, tree, live, j, first, candidate, _⟩
    · refine ⟨iff_of_true (periodic_created unlocked first found) (Or.inl root), ?_⟩
      exact fun nodes fuel circular enough => periodic_returns unlocked first circular enough
    · refine ⟨iff_of_false (periodic_refused unlocked first) ?_, ?_⟩
      · exact not_or.mpr ⟨inner, none_left⟩
      · exact fun nodes fuel circular enough => periodic_returns unlocked first circular enough
    · have there := (Heap.nodeAddr_leaf place j (Heap.node_bound _ j candidate.1 le_rfl)).1
      refine ⟨iff_of_true (periodic_created unlocked first there) (Or.inr ⟨j, candidate⟩), ?_⟩
      exact fun nodes fuel circular enough => periodic_returns unlocked first circular enough

def booting : Station Unit Nat where
  kernel := Serialized.reset.kernel
  heap := Heap.initial
  background := PeriodicAlarm.noTasks
  owner _ := none
  primask _ := false

def atWork (heap : Heap.State) : Station Unit Nat :=
  { booting with heap, background := PeriodicAlarm.threeTasks }

def halfTaken : List Heap.Call := [.malloc 65536, .malloc 300, .malloc 10000]

def bothTaken : List Heap.Call := [.malloc 65536, .malloc 65536]

/-- The stack is refused with half of the heap in use and the TCB with all of it; a
fourth periodic task is linked between the second and the third. -/
theorem creation_ok_at_work :
    ∃ half full, exec (Heap.step Heap.sramPlacement) Heap.initial halfTaken = some half ∧
      exec (Heap.step Heap.sramPlacement) Heap.initial bothTaken = some full ∧
      ((addThread Heap.sramPlacement (atWork half) .cpu0 40000 1).map Prod.snd = some 1 ∧
        AddThreadOk Heap.sramPlacement (atWork half) .cpu0 40000 1) ∧
      ((addThread Heap.sramPlacement (atWork full) .cpu0 1024 1).map Prod.snd = some 1 ∧
        AddThreadOk Heap.sramPlacement (atWork full) .cpu0 1024 1) ∧
      AddPeriodicTaskOk Heap.sramPlacement (atWork half) .cpu0 7 1 2500 ∧
      ∃ s' answer,
        addPeriodicTask Heap.sramPlacement 3 (atWork half) .cpu0 7 1 2500 = some (s', answer) := by
  obtain ⟨half, half_ran, no_stack, half_root, served⟩ :
      ∃ half ∈ exec (Heap.step Heap.sramPlacement) Heap.initial halfTaken,
        (addThread Heap.sramPlacement (atWork half) .cpu0 40000 1).map Prod.snd = some 1 ∧
        ¬ IsLeaf (half.tree 0) ∧
        (allocate Heap.sramPlacement half sizeofBgt).map Prod.snd ≠ some null := by
    decide +kernel
  obtain ⟨full, full_ran, no_tcb, full_root⟩ :
      ∃ full ∈ exec (Heap.step Heap.sramPlacement) Heap.initial bothTaken,
        (addThread Heap.sramPlacement (atWork full) .cpu0 1024 1).map Prod.snd = some 1 ∧
        ¬ IsLeaf (full.tree 0) := by
    decide +kernel
  have begun : Reaches (Heap.step Heap.sramPlacement) Transition.free (· = Heap.initial)
      Heap.initial := .start rfl
  have half_reached := exec_reaches halfTaken begun (allowed_free _ _ _) half_ran
  have full_reached := exec_reaches bothTaken begun (allowed_free _ _ _) full_ran
  have candidate : ∃ k, Candidate half.tree heapTreeLevelCnt k := by
    rcases least_outcome Heap.sramPlacement (Heap.run_addressed _ half_reached).1 (Or.inr rfl) with
      ⟨root, _⟩ | ⟨_, _, live, refused⟩ | ⟨_, _, _, k, _, candidate, _⟩
    · exact absurd root half_root
    · exact absurd (congrArg (Option.map Prod.snd) refused) served
    · exact ⟨k, candidate⟩
  obtain ⟨threads, tasks⟩ := creation_ok_iff (s := atWork half) half_reached .cpu0
  obtain ⟨periodic, returns⟩ := tasks rfl 7 1 2500
  have ring := PeriodicAlarm.threeTasks_queue
  exact ⟨half, full, half_ran, full_ran,
    ⟨no_stack, (threads rfl 40000 1).mpr ⟨by decide, fun both => half_root both.1⟩⟩,
    ⟨no_tcb, ((creation_ok_iff (s := atWork full) full_reached .cpu0).1 rfl 1024 1).mpr
      ⟨by decide, fun both => full_root both.1⟩⟩,
    periodic.mpr (Or.inr candidate), returns _ 3 ⟨ring.ring, ring.distinct⟩ le_rfl⟩

/-- The priority behind the last one: the core keeps `SCHEDULER` and has its
interrupts masked. -/
theorem bad_priority_keeps_lock :
    ∃ s', addThread Heap.sramPlacement booting .cpu0 1024 5 = some (s', 1) ∧
      s'.owner .scheduler = some .cpu0 ∧ s'.primask .cpu0 ≠ booting.primask .cpu0 ∧
      ¬ AddThreadOk Heap.sramPlacement booting .cpu0 1024 5 :=
  ⟨booting.entered .cpu0 .scheduler, rfl, rfl, by decide, bad_priority rfl 1024 (by decide)⟩

end MulticoreRtos.Creation
