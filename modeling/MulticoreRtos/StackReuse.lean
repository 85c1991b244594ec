import MulticoreRtos.SerializedRuns
import MulticoreRtos.HeapExact

/-!
The stack of a thread that ends. `kill` frees the stack it runs on and leaves it
only with the switch. The cores step by the statements of `kill`, by calls of
`malloc` and `free`, and by giving two blocks to a new thread; the heap is that
of `os/heap.c`. Which thread `schedule()` selects is left open, but it is never
one that another core has.
-/

namespace MulticoreRtos.StackReuse

open Scheduler Serialized Transition
open Heap (null Block Apart IsLeaf nodeBlock blockSizeFor)

inductive Stage where
  | inThread
  | dequeued
  | stackFreed
  | tcbFreed
  | stubbed
  | scheduled
  deriving DecidableEq

/-- Whose a thread is: of a core from its selection on, `ending` from `kill`'s
first `free` to its second. -/
inductive Post where
  | gone
  | pool
  | core (cpu : Core)
  | idle (cpu : Core)
  | ending (cpu : Core)
  deriving DecidableEq

inductive Use where
  | caller
  | tcb (thread : Nat)
  | stack (thread : Nat)
  deriving DecidableEq

/-- `stack` is the field of a TCB, as a block. `usedAs`, `onStack` and `handedOut`
are history: the block a core executes on, and whether `malloc` has returned a
block that meets it since. -/
structure Board where
  heap : Heap.State
  stack : Nat → Block
  runPt : Core → Nat
  nextRunPt : Core → Nat
  idleThread : Core → Nat
  stage : Core → Stage
  post : Nat → Post
  usedAs : Nat → Option Use
  onStack : Core → Block
  handedOut : Core → Bool

inductive Event where
  | malloc (cpu : Core) (size : Nat)
  | free (cpu : Core) (ptr : Nat)
  | addThread (cpu : Core) (newtcb : Nat) (stack : Block)
  | dequeue (cpu : Core)
  | freeStack (cpu : Core)
  | freeTcb (cpu : Core)
  | stub (cpu : Core)
  | schedule (cpu : Core) (next : Nat)
  | pendSv (cpu : Core)

instance (a b : Block) : Decidable (Apart a b) := inferInstanceAs (Decidable (_ ∨ _))

def Enabled (s : Board) : Event → Prop
  | .malloc cpu _ | .free cpu _ => s.stage cpu = .inThread
  | .addThread cpu newtcb stack =>
      s.stage cpu = .inThread ∧ s.usedAs newtcb = some .caller ∧ s.usedAs stack.ptr = some .caller ∧
        newtcb ≠ stack.ptr ∧ stack ∈ s.heap.live
  | .dequeue cpu => s.stage cpu = .inThread ∧ s.runPt cpu ≠ s.idleThread cpu
  | .freeStack cpu => s.stage cpu = .dequeued
  | .freeTcb cpu => s.stage cpu = .stackFreed
  | .stub cpu => s.stage cpu = .tcbFreed
  | .schedule cpu next =>
      s.stage cpu = .stubbed ∧ (s.post next = .pool ∨ next = s.idleThread cpu)
  | .pendSv cpu => s.stage cpu = .scheduled

instance (s : Board) (event : Event) : Decidable (Enabled s event) :=
  match event with
  | .malloc _ _ | .free _ _ | .freeStack _ | .freeTcb _ | .stub _ | .pendSv _ =>
      inferInstanceAs (Decidable (_ = _))
  | .addThread _ _ _ => inferInstanceAs (Decidable (_ ∧ _ ∧ _ ∧ _ ∧ _))
  | .dequeue _ => inferInstanceAs (Decidable (_ ∧ _))
  | .schedule _ _ => inferInstanceAs (Decidable (_ ∧ (_ ∨ _)))

def Board.enter (s : Board) (cpu : Core) (stage : Stage) : Board :=
  { s with stage := Function.update s.stage cpu stage }

def Board.returned (s : Board) (block : Block) : Board :=
  { s with
    usedAs := Function.update s.usedAs block.ptr (some .caller)
    handedOut := fun c => s.handedOut c || !decide (Apart block (s.onStack c)) }

def Board.release (place : Heap.Placement) (s : Board) (ptr : Nat) : Option Board :=
  (Heap.step place s.heap (.free ptr)).map fun heap =>
    { s with heap, usedAs := Function.update s.usedAs ptr none }

variable {Sem : Type}

def perform (layout : Layout Sem) (s : Board) : Event → Option Board
  | .malloc _ size =>
      (allocate layout.place s.heap size).map fun (heap, ptr) =>
        if ptr = null then { s with heap }
        else Board.returned { s with heap } ⟨ptr, blockSizeFor size⟩
  | .free _ ptr => s.release layout.place ptr
  | .addThread _ newtcb stack =>
      some { s with
        stack := Function.update s.stack newtcb stack
        post := Function.update s.post newtcb .pool
        usedAs := Function.update (Function.update s.usedAs newtcb (some (.tcb newtcb))) stack.ptr
          (some (.stack newtcb)) }
  | .dequeue cpu => some (s.enter cpu .dequeued)
  | .freeStack cpu =>
      let thread := s.runPt cpu
      (s.release layout.place (s.stack thread).ptr).map fun s =>
        Board.enter { s with post := Function.update s.post thread (.ending cpu) } cpu .stackFreed
  | .freeTcb cpu =>
      let thread := s.runPt cpu
      (s.release layout.place thread).map fun s =>
        Board.enter { s with post := Function.update s.post thread .gone } cpu .tcbFreed
  | .stub cpu =>
      some (Board.enter { s with runPt := Function.update s.runPt cpu layout.blackHole } cpu .stubbed)
  | .schedule cpu next =>
      let post := if next = s.idleThread cpu then s.post else Function.update s.post next (.core cpu)
      some (Board.enter { s with nextRunPt := Function.update s.nextRunPt cpu next, post } cpu
        .scheduled)
  | .pendSv cpu =>
      some (Board.enter { s with
        runPt := Function.update s.runPt cpu (s.nextRunPt cpu)
        onStack := Function.update s.onStack cpu (s.stack (s.nextRunPt cpu))
        handedOut := Function.update s.handedOut cpu false } cpu .inThread)

def step (layout : Layout Sem) (s : Board) (event : Event) : Option Board :=
  if Enabled s event then perform layout s event else none

/-- `malloc` is asked for what it serves well, and no caller of `free` passes the
TCB or the stack of a thread. -/
def Guard (s : Board) : Event → Prop
  | .malloc _ size => Heap.Spared s.heap (.malloc size)
  | .free _ ptr => s.usedAs ptr = none ∨ s.usedAs ptr = some .caller
  | _ => True

instance (s : Board) (event : Event) : Decidable (Guard s event) :=
  match event with
  | .malloc _ size => inferInstanceAs (Decidable (Heap.Spared s.heap (.malloc size)))
  | .free _ _ => inferInstanceAs (Decidable (_ ∨ _))
  | .addThread _ _ _ | .dequeue _ | .freeStack _ | .freeTcb _ | .stub _ | .schedule _ _
  | .pendSv _ => inferInstanceAs (Decidable True)

def Leaving : Stage → Prop
  | .inThread | .dequeued => False
  | .stackFreed | .tcbFreed | .stubbed | .scheduled => True

/-- The block of the stack a core executes on is allocated, and `malloc` has
returned no part of it. -/
def StackSafe (layout : Layout Sem) (s : Board) (cpu : Core) : Prop :=
  (∃ i, IsLeaf (s.heap.tree i) ∧ nodeBlock layout.place.heapPtr i = s.onStack cpu) ∧
    s.handedOut cpu = false

def postOf (m : Machine Sem) (t : Nat) : Post :=
  if t = m.kernel.idleThread .cpu0 then .idle .cpu0
  else if t = m.kernel.idleThread .cpu1 then .idle .cpu1
  else if t ∉ m.live then .gone
  else if t = m.kernel.runPt .cpu0 then .core .cpu0
  else if t = m.kernel.runPt .cpu1 then .core .cpu1
  else .pool

def Whole : Post → Prop
  | .gone | .ending _ => False
  | .pool | .core _ | .idle _ => True

structure Entry (m : Machine Sem) (s : Board) : Prop where
  heap : s.heap = m.heap
  runPt : s.runPt = m.kernel.runPt
  idleThread : s.idleThread = m.kernel.idleThread
  started : ∀ c, m.kernel.runPt c ≠ null
  stage : s.stage = fun _ => .inThread
  post : s.post = postOf m
  stack : ∀ t, Whole (postOf m t) → s.stack t ∈ m.heap.live ∧ (s.stack t).ptr = m.kernel.stack t
  used : ∀ t, Whole (postOf m t) →
    s.usedAs t = some (.tcb t) ∧ s.usedAs (m.kernel.stack t) = some (.stack t)
  held : ∀ p, s.usedAs p ≠ none → ∃ block ∈ m.heap.live, block.ptr = p
  onStack : ∀ c, s.onStack c = s.stack (s.runPt c)
  handedOut : s.handedOut = fun _ => false

def Start [DecidableEq Sem] (layout : Layout Sem) (s : Board) : Prop :=
  ∃ m, Reaches (Serialized.step layout) (Serialized.Guard layout) (PowerOn layout) m ∧ Entry m s

/-! The heap under a step -/

section Blocks
variable {place : Heap.Placement} {heap after : Heap.State}

/-- A spared `malloc` fails and changes nothing, or returns a new block, and the
nodes in use after it are those before and its own. -/
theorem allocate_cases (tracked : Heap.Tracked place heap) {size ptr : Nat}
    (spared : Heap.Spared heap (.malloc size))
    (answer : allocate place heap size = some (after, ptr)) :
    ptr = null ∧ after = heap ∨
      ptr ≠ null ∧ Heap.Tracked place after ∧
        after.live = ⟨ptr, blockSizeFor size⟩ :: heap.live ∧
        (∀ old ∈ heap.live, Apart ⟨ptr, blockSizeFor size⟩ old) ∧
        ∀ k, IsLeaf (after.tree k) → after.tree k = ptr ∨ IsLeaf (heap.tree k) := by
  obtain ⟨⟨tree, found⟩, answered, answer⟩ := Option.bind_eq_some_iff.mp answer
  obtain ⟨left, stepped, answer⟩ := Option.bind_eq_some_iff.mp answer
  obtain ⟨rfl, rfl⟩ := Prod.mk.inj (Option.some.inj answer)
  have kept := Heap.tracked_step place heap (.malloc size) _ tracked spared stepped
  rcases Heap.malloc_cases place.heapPtr tracked.wf.shaped size with failed | ⟨grown, j, ptr, taken⟩
  · obtain ⟨rfl, rfl⟩ := Prod.mk.inj (Option.some.inj (failed.symm.trans answered))
    simp only [Heap.step, failed, Option.map_some, if_true, Option.some.injEq] at stepped
    exact Or.inl ⟨rfl, stepped.symm⟩
  · obtain ⟨rfl, rfl⟩ := Prod.mk.inj (Option.some.inj (taken.answer.symm.trans answered))
    have present := taken.leaf.1
    simp only [Heap.step, taken.answer, Option.map_some, if_neg present, Option.some.injEq] at stepped
    subst stepped
    obtain ⟨_, _, again, safe⟩ := Heap.serves_safe (Heap.malloc_serves tracked size spared)
    obtain ⟨rfl, rfl⟩ := Prod.mk.inj (Option.some.inj (taken.answer.symm.trans again))
    refine Or.inr ⟨present, kept, rfl, ?_, ?_⟩
    · rw [Heap.blockSizeFor_max]
      exact (safe present).2.2.2
    · intro k leaf
      have leaf : IsLeaf (grown k) := leaf
      by_cases here : k = j
      · exact Or.inl (here ▸ taken.grown.here)
      · by_cases above : DyadicTree.Ancestor k j
        · rw [taken.grown.marks k above] at leaf
          exact absurd leaf Heap.leaf_branch
        · rw [taken.grown.keeps k here above] at leaf
          exact Or.inr leaf

theorem free_leaves (tracked : Heap.Tracked place heap) {ptr : Nat}
    (freed : Heap.step place heap (.free ptr) = some after) (k : Nat)
    (leaf : IsLeaf (after.tree k)) : IsLeaf (heap.tree k) := by
  rcases Heap.free_step place heap tracked.wf.shaped ptr with
    ⟨refused, _⟩ | ⟨i, tree, released_step, _, _, _, _, released⟩
  · obtain rfl := Option.some.inj (refused.symm.trans freed)
    exact leaf
  · obtain rfl := Option.some.inj (released_step.symm.trans freed)
    have leaf : IsLeaf (tree k) := leaf
    rwa [(released.taken k leaf.1).1] at leaf

/-- A block that `free` was given is in no node any more, if it was not the
whole heap. -/
theorem freed_gone (tracked : Heap.Tracked place heap) (root : ¬ IsLeaf (heap.tree 0))
    {block : Block} (live : block ∈ heap.live)
    (freed : Heap.step place heap (.free block.ptr) = some after) (k : Nat)
    (leaf : IsLeaf (after.tree k)) : nodeBlock place.heapPtr k ≠ block := by
  rintro same
  obtain ⟨i, i_leaf, here⟩ := tracked.live block live
  have holds : heap.tree i = block.ptr := by
    rw [tracked.wf.address i i_leaf, here]
    rfl
  rcases Heap.free_step place heap tracked.wf.shaped block.ptr with
    ⟨_, _, top | absent⟩ | ⟨j, tree, released_step, _, _, j_holds, j_leaf, released⟩
  · rw [top, ← holds] at root
    exact root i_leaf
  · exact absent i i_leaf.1 holds
  · obtain rfl := Option.some.inj (released_step.symm.trans freed)
    have leaf : IsLeaf (tree k) := leaf
    obtain ⟨kept, other⟩ := released.taken k leaf.1
    rw [kept] at leaf
    have value : heap.tree k = heap.tree j := by
      rw [tracked.wf.address k leaf, j_holds, ← same]
      rfl
    exact other (Heap.leaf_unique tracked.wf k j leaf j_leaf value)

end Blocks

/-! The invariant -/

structure Owns (s : Board) (t : Nat) : Prop where
  live : s.stack t ∈ s.heap.live
  stack : s.usedAs (s.stack t).ptr = some (.stack t)
  tcb : s.usedAs t = some (.tcb t)

def Selected (s : Board) (c : Core) (t : Nat) : Prop := t = s.idleThread c ∨ s.post t = .core c

def OnOwn (s : Board) (c : Core) : Prop :=
  s.onStack c = s.stack (s.runPt c) ∧ s.handedOut c = false

/-- The block of the stack the core is on is no node's, unless `malloc` has
returned it since. -/
def Freed (layout : Layout Sem) (s : Board) (c : Core) : Prop :=
  ∀ i, IsLeaf (s.heap.tree i) → nodeBlock layout.place.heapPtr i = s.onStack c →
    s.handedOut c = true

def CoreOk (layout : Layout Sem) (s : Board) (c : Core) : Stage → Prop
  | .inThread => Selected s c (s.runPt c) ∧ OnOwn s c
  | .dequeued => s.post (s.runPt c) = .core c ∧ OnOwn s c
  | .stackFreed => (s.post (s.runPt c) = .ending c ∧ s.usedAs (s.runPt c) = some (.tcb (s.runPt c))) ∧
      Freed layout s c
  | .tcbFreed | .stubbed => Freed layout s c
  | .scheduled => Selected s c (s.nextRunPt c) ∧ Freed layout s c

structure Inv (layout : Layout Sem) (s : Board) : Prop where
  tracked : Heap.Tracked layout.place s.heap
  held : ∀ p, s.usedAs p ≠ none → ∃ block ∈ s.heap.live, block.ptr = p
  owns : ∀ t, Whole (s.post t) → Owns s t
  idle : ∀ c, s.post (s.idleThread c) = .idle c
  cores : ∀ c, CoreOk layout s c (s.stage c)

variable {layout : Layout Sem} {s s' : Board} {t u : Nat}

theorem Selected.whole (inv : Inv layout s) {c : Core} (selected : Selected s c t) :
    Whole (s.post t) := by
  rcases selected with rfl | here
  · simp [inv.idle, Whole]
  · simp [here, Whole]

theorem post_ne {first second : Post} (one : s.post t = first) (two : s.post u = second)
    (other : first ≠ second) : t ≠ u := by
  rintro rfl
  exact other (one.symm.trans two)

theorem used_ne {p q : Nat} {first second : Use} (one : s.usedAs p = some first)
    (two : s.usedAs q = some second) (other : first ≠ second) : p ≠ q := by
  rintro rfl
  exact other (Option.some.inj (one.symm.trans two))

theorem Owns.stack_ne (first : Owns s t) (second : Owns s u) (other : t ≠ u) :
    (s.stack t).ptr ≠ (s.stack u).ptr :=
  used_ne first.stack second.stack (by simpa using other)

theorem Owns.stack_tcb (first : Owns s t) (held : s.usedAs u = some (.tcb u)) :
    (s.stack t).ptr ≠ u :=
  used_ne first.stack held (by simp)

theorem Owns.elsewhere {heap : Heap.State} {p : Nat} {use : Option Use} (owns : Owns s t)
    (stack : (s.stack t).ptr ≠ p) (tcb : t ≠ p)
    (kept : ∀ block ∈ s.heap.live, block.ptr ≠ p → block ∈ heap.live) {s' : Board}
    (same_heap : s'.heap = heap) (same_stack : s'.stack = s.stack)
    (same_use : s'.usedAs = Function.update s.usedAs p use) : Owns s' t := by
  constructor
  · rw [same_heap, same_stack]
    exact kept _ owns.live stack
  · rw [same_use, same_stack, Function.update_of_ne stack]
    exact owns.stack
  · rw [same_use, Function.update_of_ne tcb]
    exact owns.tcb

structure Undisturbed (s s' : Board) (d : Core) : Prop where
  runPt : s'.runPt d = s.runPt d
  nextRunPt : s'.nextRunPt d = s.nextRunPt d
  idleThread : s'.idleThread = s.idleThread
  onStack : s'.onStack d = s.onStack d
  handedOut : s'.handedOut d = s.handedOut d
  stack : ∀ t, Whole (s.post t) → s'.stack t = s.stack t
  core : ∀ t, s.post t = .core d → s'.post t = .core d
  ending : ∀ t, s.post t = .ending d → s.usedAs t = some (.tcb t) →
    s'.post t = .ending d ∧ s'.usedAs t = some (.tcb t)
  leaves : ∀ i, IsLeaf (s'.heap.tree i) → IsLeaf (s.heap.tree i)

section Undisturbed
variable {d : Core}

theorem Undisturbed.selected (same : Undisturbed s s' d) (selected : Selected s d t) :
    Selected s' d t := by
  rcases selected with rfl | here
  · exact Or.inl (congrFun same.idleThread d).symm
  · exact Or.inr (same.core t here)

theorem Undisturbed.onOwn (same : Undisturbed s s' d) (whole : Whole (s.post (s.runPt d)))
    (on : OnOwn s d) : OnOwn s' d := by
  refine ⟨?_, same.handedOut.trans on.2⟩
  rw [same.onStack, same.runPt, same.stack _ whole]
  exact on.1

theorem Undisturbed.freed (same : Undisturbed s s' d) (freed : Freed layout s d) :
    Freed layout s' d := by
  intro i leaf here
  rw [same.onStack] at here
  rw [same.handedOut]
  exact freed i (same.leaves i leaf) here

theorem Undisturbed.keeps (inv : Inv layout s) (same : Undisturbed s s' d) {stage : Stage}
    (ok : CoreOk layout s d stage) : CoreOk layout s' d stage := by
  cases stage with
  | inThread =>
      refine ⟨?_, same.onOwn (ok.1.whole inv) ok.2⟩
      rw [same.runPt]
      exact same.selected ok.1
  | dequeued =>
      have here : s.post (s.runPt d) = .core d := ok.1
      refine ⟨?_, same.onOwn (by simp [here, Whole]) ok.2⟩
      rw [same.runPt]
      exact same.core _ here
  | stackFreed =>
      obtain ⟨⟨here, tcb⟩, freed⟩ := ok
      refine ⟨?_, same.freed freed⟩
      rw [same.runPt]
      exact same.ending _ here tcb
  | tcbFreed => exact same.freed ok
  | stubbed => exact same.freed ok
  | scheduled =>
      refine ⟨?_, same.freed ok.2⟩
      rw [same.nextRunPt]
      exact same.selected ok.1

end Undisturbed

theorem Inv.cores_enter (inv : Inv layout s) {c : Core} {stage : Stage}
    (here : CoreOk layout (s'.enter c stage) c stage) (stages : s'.stage = s.stage)
    (others : ∀ d, d ≠ c → Undisturbed s (s'.enter c stage) d) :
    ∀ d, CoreOk layout (s'.enter c stage) d ((s'.enter c stage).stage d) := by
  intro d
  by_cases this : d = c
  · subst this
    rw [show (s'.enter d stage).stage d = stage from Function.update_self _ _ _]
    exact here
  · have kept : (s'.enter c stage).stage d = s.stage d := by
      simp only [Board.enter, Function.update_of_ne this, stages]
    rw [kept]
    exact (others d this).keeps inv (inv.cores d)

theorem Inv.released (inv : Inv layout s) {p : Nat} {heap : Heap.State}
    (freed : Heap.step layout.place s.heap (.free p) = some heap) :
    Heap.Tracked layout.place heap ∧
      (∀ block ∈ s.heap.live, block.ptr ≠ p → block ∈ heap.live) ∧
      (∀ q, Function.update s.usedAs p none q ≠ none → ∃ block ∈ heap.live, block.ptr = q) ∧
      ∀ k, IsLeaf (heap.tree k) → IsLeaf (s.heap.tree k) := by
  obtain ⟨after, stepped, tracked, live⟩ := release_spec inv.tracked p
  obtain rfl := Option.some.inj (stepped.symm.trans freed)
  have kept (block : Block) (old : block ∈ s.heap.live) (other : block.ptr ≠ p) :
      block ∈ after.live := by
    rw [live]
    exact List.mem_filter.mpr ⟨old, decide_eq_true other⟩
  refine ⟨tracked, kept, ?_, free_leaves inv.tracked freed⟩
  intro q used
  have other : q ≠ p := by
    rintro rfl
    exact used (Function.update_self _ _ _)
  rw [Function.update_of_ne other] at used
  obtain ⟨block, old, rfl⟩ := inv.held q used
  exact ⟨block, kept block old other, rfl⟩

theorem inv_free (inv : Inv layout s) {p : Nat}
    (nobody : s.usedAs p = none ∨ s.usedAs p = some .caller)
    (released : s.release layout.place p = some s') : Inv layout s' := by
  obtain ⟨heap, freed, rfl⟩ := Option.map_eq_some_iff.mp released
  obtain ⟨tracked, kept, held, leaves⟩ := inv.released freed
  have apart (q : Nat) (use : Use) (used : s.usedAs q = some use) (not_caller : use ≠ .caller) :
      q ≠ p := by
    rcases nobody with none | caller
    · rintro rfl
      exact nomatch used.symm.trans none
    · exact used_ne used caller not_caller
  refine ⟨tracked, held, ?_, inv.idle, fun d => ?_⟩
  · intro t whole
    have owns := inv.owns t whole
    exact owns.elsewhere (apart _ _ owns.stack (by simp)) (apart t _ owns.tcb (by simp)) kept
      rfl rfl rfl
  · have same : Undisturbed s { s with heap, usedAs := Function.update s.usedAs p none } d := by
      refine ⟨rfl, rfl, rfl, rfl, rfl, fun _ _ => rfl, fun _ here => here, ?_, leaves⟩
      intro t here tcb
      exact ⟨here, (Function.update_of_ne (apart t _ tcb (by simp)) _ _).trans tcb⟩
    exact same.keeps inv (inv.cores d)

theorem CoreOk.malloc {c : Core} {block : Block} {heap : Heap.State} {stage : Stage}
    (inv : Inv layout s) (ok : CoreOk layout s c stage)
    (fresh : ∀ q, s.usedAs q ≠ none → q ≠ block.ptr)
    (apart : ∀ old ∈ s.heap.live, Apart block old)
    (leaves : ∀ i, IsLeaf (heap.tree i) → nodeBlock layout.place.heapPtr i = s.onStack c →
      ¬ Apart block (s.onStack c) ∨ IsLeaf (s.heap.tree i)) :
    CoreOk layout (Board.returned { s with heap } block) c stage := by
  -- the stack of a thread is live, so the new block is apart from it
  have on (whole : Whole (s.post (s.runPt c))) (before : OnOwn s c) :
      OnOwn (Board.returned { s with heap } block) c := by
    refine ⟨before.1, ?_⟩
    have separate := apart (s.onStack c) (by rw [before.1]; exact (inv.owns _ whole).live)
    simp [Board.returned, before.2, separate]
  -- a freed stack is a leaf again only as the new block
  have off (before : Freed layout s c) :
      Freed layout (Board.returned { s with heap } block) c := by
    intro i leaf same
    rcases leaves i leaf same with meets | old
    · simp [Board.returned, meets]
    · simp [Board.returned, before i old same]
  cases stage with
  | inThread => exact ⟨ok.1, on (ok.1.whole inv) ok.2⟩
  | dequeued =>
      have here : s.post (s.runPt c) = .core c := ok.1
      exact ⟨here, on (by simp [here, Whole]) ok.2⟩
  | stackFreed =>
      obtain ⟨⟨here, tcb⟩, freed⟩ := ok
      have kept := fresh (s.runPt c) (by simp [tcb])
      exact ⟨⟨here, (Function.update_of_ne kept _ _).trans tcb⟩, off freed⟩
  | tcbFreed => exact off ok
  | stubbed => exact off ok
  | scheduled => exact ⟨ok.1, off ok.2⟩

theorem inv_malloc (inv : Inv layout s) {size ptr : Nat} {heap : Heap.State}
    (spared : Heap.Spared s.heap (.malloc size))
    (answer : allocate layout.place s.heap size = some (heap, ptr)) :
    Inv layout (if ptr = null then { s with heap }
      else Board.returned { s with heap } ⟨ptr, blockSizeFor size⟩) := by
  rcases allocate_cases inv.tracked spared answer with
    ⟨rfl, rfl⟩ | ⟨present, tracked, live, apart, leaves⟩
  · rw [if_pos rfl]
    exact inv
  · rw [if_neg present]
    have positive : 0 < blockSizeFor size := by
      rw [Heap.blockSizeFor_max]
      exact lt_max_of_lt_right (by decide)
    have new : ⟨ptr, blockSizeFor size⟩ ∈ heap.live := by
      rw [live]
      exact List.mem_cons_self
    have stays (block : Block) (old : block ∈ s.heap.live) : block ∈ heap.live := by
      rw [live]
      exact List.mem_cons_of_mem _ old
    have fresh (q : Nat) (used : s.usedAs q ≠ none) : q ≠ ptr := by
      obtain ⟨old, member, rfl⟩ := inv.held q used
      obtain ⟨i, _, same⟩ := inv.tracked.live old member
      apply same_address_meets positive _ (apart old member)
      rw [same]
      exact Nat.two_pow_pos _
    refine ⟨tracked, ?_, ?_, inv.idle, fun c => (inv.cores c).malloc inv fresh apart ?_⟩
    · intro q used
      by_cases this : q = ptr
      · exact ⟨_, new, this.symm⟩
      · obtain ⟨old, member, same⟩ := inv.held q (by
          simpa [Board.returned, Function.update_of_ne this] using used)
        exact ⟨old, stays old member, same⟩
    · intro t whole
      have owns := inv.owns t whole
      exact owns.elsewhere (fresh _ (by simp [owns.stack])) (fresh t (by simp [owns.tcb]))
        (fun block old _ => stays block old) rfl rfl rfl
    · intro i leaf same
      refine (leaves i leaf).imp_left fun here separate => ?_
      rw [← same] at separate
      exact same_address_meets positive (Nat.two_pow_pos _) separate
        ((tracked.wf.address i leaf).symm.trans here)

theorem Selected.apart (inv : Inv layout s) {c d : Core} (selected : Selected s d u)
    (here : s.post t = .core c) (other : d ≠ c) : u ≠ t := by
  rcases selected with rfl | there
  · exact post_ne (inv.idle d) here (by simp)
  · exact post_ne there here (by simpa using other)

/-- A `free` in `kill`: the block at `ptr` goes, and the thread that ends gets another post. -/
theorem Inv.frees (inv : Inv layout s) {c : Core} {ptr : Nat} {heap : Heap.State} {post : Post}
    {stage : Stage} (freed : Heap.step layout.place s.heap (.free ptr) = some heap)
    (mine : s.post (s.runPt c) = .core c ∨ s.post (s.runPt c) = .ending c) (ends : ¬ Whole post)
    (other_stack : ∀ t, t ≠ s.runPt c → Owns s t → (s.stack t).ptr ≠ ptr)
    (other_tcb : ∀ t, t ≠ s.runPt c → s.usedAs t = some (.tcb t) → t ≠ ptr) {s' : Board}
    (result : s' = { s with
      heap
      usedAs := Function.update s.usedAs ptr none
      post := Function.update s.post (s.runPt c) post })
    (here : CoreOk layout (s'.enter c stage) c stage) : Inv layout (s'.enter c stage) := by
  subst result
  obtain ⟨tracked, kept, held, leaves⟩ := inv.released freed
  have post_of (t : Nat) (other : t ≠ s.runPt c) :
      Function.update s.post (s.runPt c) post t = s.post t := Function.update_of_ne other _ _
  have not_mine (d : Core) (other : d ≠ c) (t : Nat)
      (there : s.post t = .core d ∨ s.post t = .ending d) : t ≠ s.runPt c := by
    rintro rfl
    rcases mine with core | ending
    · simp [core, Ne.symm other] at there
    · simp [ending, Ne.symm other] at there
  refine ⟨tracked, held, ?_, ?_, inv.cores_enter here rfl fun d other => ?_⟩
  · intro t whole
    have other : t ≠ s.runPt c := by
      rintro rfl
      exact ends (by simpa only [Board.enter, Function.update_self] using whole)
    simp only [Board.enter, post_of t other] at whole
    have owns := inv.owns t whole
    exact owns.elsewhere (other_stack t other owns) (other_tcb t other owns.tcb) kept rfl rfl rfl
  · intro d
    have idle := inv.idle d
    have other : s.idleThread d ≠ s.runPt c := by
      intro same
      rw [same] at idle
      simp [idle] at mine
    exact (post_of _ other).trans idle
  · refine ⟨rfl, rfl, rfl, rfl, rfl, fun _ _ => rfl, fun t there => ?_, fun t there tcb => ?_, leaves⟩
    · exact (post_of t (not_mine d other t (Or.inl there))).trans there
    · have apart := not_mine d other t (Or.inr there)
      exact ⟨(post_of t apart).trans there, (Function.update_of_ne (other_tcb t apart tcb) _ _).trans tcb⟩

theorem inv_freeStack (inv : Inv layout s) {c : Core} (stage : s.stage c = .dequeued)
    (performed : perform layout s (.freeStack c) = some s') : Inv layout s' := by
  obtain ⟨after, released, rfl⟩ := Option.map_eq_some_iff.mp performed
  obtain ⟨heap, freed, rfl⟩ := Option.map_eq_some_iff.mp released
  have ok := inv.cores c
  rw [stage] at ok
  obtain ⟨mine, on, _⟩ := ok
  have own := inv.owns (s.runPt c) (by simp [mine, Whole])
  -- the TCB is a second block, so the stack is not the whole heap, which `free` would keep
  have root : ¬ IsLeaf (s.heap.tree 0) := by
    intro leaf
    obtain ⟨tcb, tcb_live, tcb_ptr⟩ := inv.held (s.runPt c) (by simp [own.tcb])
    have whole := (Heap.live_root inv.tracked leaf.2 _ own.live).2
    have tcb_whole := (Heap.live_root inv.tracked leaf.2 _ tcb_live).2
    exact own.stack_tcb own.tcb (by rw [whole, ← tcb_whole, tcb_ptr])
  refine inv.frees freed (Or.inl mine) id (fun t other owns => owns.stack_ne own other)
    (fun t _ tcb => (own.stack_tcb tcb).symm) rfl ⟨⟨?_, ?_⟩, ?_⟩
  · exact Function.update_self _ _ _
  · exact (Function.update_of_ne (own.stack_tcb own.tcb).symm _ _).trans own.tcb
  · intro i leaf same
    exact absurd (same.trans on) (freed_gone inv.tracked root own.live freed i leaf)

theorem inv_freeTcb (inv : Inv layout s) {c : Core} (stage : s.stage c = .stackFreed)
    (performed : perform layout s (.freeTcb c) = some s') : Inv layout s' := by
  obtain ⟨after, released, rfl⟩ := Option.map_eq_some_iff.mp performed
  obtain ⟨heap, freed, rfl⟩ := Option.map_eq_some_iff.mp released
  have ok := inv.cores c
  rw [stage] at ok
  obtain ⟨⟨mine, tcb⟩, off⟩ := ok
  refine inv.frees freed (Or.inr mine) id (fun t _ owns => owns.stack_tcb tcb)
    (fun t other _ => other) rfl ?_
  exact fun i leaf same => off i ((inv.released freed).2.2.2 i leaf) same

theorem inv_addThread (inv : Inv layout s) {newtcb : Nat} {stack : Block}
    (tcb_free : s.usedAs newtcb = some .caller) (stack_free : s.usedAs stack.ptr = some .caller)
    (apart : newtcb ≠ stack.ptr) (live : stack ∈ s.heap.live) :
    Inv layout { s with
      stack := Function.update s.stack newtcb stack
      post := Function.update s.post newtcb .pool
      usedAs := Function.update (Function.update s.usedAs newtcb (some (.tcb newtcb))) stack.ptr
        (some (.stack newtcb)) } := by
  -- both blocks were the caller's, so nobody else uses them
  have old (q : Nat) (use : Use) (used : s.usedAs q = some use) (not_caller : use ≠ .caller) :
      q ≠ newtcb ∧ q ≠ stack.ptr :=
    ⟨used_ne used tcb_free not_caller, used_ne used stack_free not_caller⟩
  have used_of (q : Nat) (others : q ≠ newtcb ∧ q ≠ stack.ptr) :
      Function.update (Function.update s.usedAs newtcb (some (.tcb newtcb))) stack.ptr
        (some (.stack newtcb)) q = s.usedAs q := by
    rw [Function.update_of_ne others.2, Function.update_of_ne others.1]
  have whole_ne (t : Nat) (whole : Whole (s.post t)) : t ≠ newtcb :=
    (old t _ (inv.owns t whole).tcb (by simp)).1
  have post_of (t : Nat) (other : t ≠ newtcb) :
      Function.update s.post newtcb .pool t = s.post t := Function.update_of_ne other _ _
  refine ⟨inv.tracked, ?_, ?_, ?_, fun d => ?_⟩
  · intro q used
    by_cases here : q = newtcb ∨ q = stack.ptr
    · rcases here with rfl | rfl
      · exact inv.held q (by simp [tcb_free])
      · exact inv.held _ (by simp [stack_free])
    · exact inv.held q (by simpa only [used_of q (not_or.mp here)] using used)
  · intro t whole
    by_cases this : t = newtcb
    · subst this
      have new_stack : Function.update s.stack t stack t = stack := Function.update_self _ _ _
      refine ⟨?_, ?_, ?_⟩
      · simp only [new_stack]
        exact live
      · simp only [new_stack]
        exact Function.update_self _ _ _
      · exact (Function.update_of_ne apart _ _).trans (Function.update_self _ _ _)
    · simp only [post_of t this] at whole
      have owns := inv.owns t whole
      have stack_of : Function.update s.stack newtcb stack t = s.stack t :=
        Function.update_of_ne this _ _
      refine ⟨?_, ?_, (used_of t (old t _ owns.tcb (by simp))).trans owns.tcb⟩
      · simp only [stack_of]
        exact owns.live
      · simp only [stack_of]
        exact (used_of _ (old _ _ owns.stack (by simp))).trans owns.stack
  · intro c
    exact (post_of _ (whole_ne _ (by simp [inv.idle, Whole]))).trans (inv.idle c)
  · have same : Undisturbed s { s with
        stack := Function.update s.stack newtcb stack
        post := Function.update s.post newtcb .pool
        usedAs := Function.update (Function.update s.usedAs newtcb (some (.tcb newtcb))) stack.ptr
          (some (.stack newtcb)) } d := by
      refine ⟨rfl, rfl, rfl, rfl, rfl, ?_, ?_, ?_, fun _ => id⟩
      · exact fun t whole => Function.update_of_ne (whole_ne t whole) _ _
      · exact fun t here => (post_of t (whole_ne t (by simp [here, Whole]))).trans here
      · intro t here tcb
        have others := old t _ tcb (by simp)
        exact ⟨(post_of t others.1).trans here, (used_of t others).trans tcb⟩
    exact same.keeps inv (inv.cores d)

theorem Inv.enter (inv : Inv layout s) {c : Core} {stage : Stage} (heap : s'.heap = s.heap)
    (stack : s'.stack = s.stack) (usedAs : s'.usedAs = s.usedAs) (stages : s'.stage = s.stage)
    (whole : ∀ t, Whole (s'.post t) → Whole (s.post t))
    (idle : ∀ d, s'.post (s'.idleThread d) = .idle d)
    (here : CoreOk layout (s'.enter c stage) c stage)
    (others : ∀ d, d ≠ c → Undisturbed s (s'.enter c stage) d) : Inv layout (s'.enter c stage) := by
  refine ⟨?_, ?_, ?_, idle, inv.cores_enter here stages others⟩
  · rw [show (s'.enter c stage).heap = s.heap from heap]
    exact inv.tracked
  · simp only [Board.enter, heap, usedAs]
    exact inv.held
  · intro t here
    obtain ⟨live, stack_held, tcb⟩ := inv.owns t (whole t here)
    constructor
    · simp only [Board.enter, stack, heap]
      exact live
    · simp only [Board.enter, stack, usedAs]
      exact stack_held
    · simp only [Board.enter, usedAs]
      exact tcb

theorem inv_dequeue (inv : Inv layout s) {c : Core} (stage : s.stage c = .inThread)
    (busy : s.runPt c ≠ s.idleThread c) : Inv layout (s.enter c .dequeued) := by
  have ok := inv.cores c
  rw [stage] at ok
  refine inv.enter rfl rfl rfl rfl (fun _ => id) inv.idle ⟨ok.1.resolve_left busy, ok.2⟩ fun d _ => ?_
  exact ⟨rfl, rfl, rfl, rfl, rfl, fun _ _ => rfl, fun _ => id, fun _ => And.intro, fun _ => id⟩

theorem inv_stub (inv : Inv layout s) {c : Core} (stage : s.stage c = .tcbFreed)
    (performed : perform layout s (.stub c) = some s') : Inv layout s' := by
  obtain rfl := Option.some.inj performed
  have ok := inv.cores c
  rw [stage] at ok
  refine inv.enter rfl rfl rfl rfl (fun _ => id) inv.idle ok fun d other => ?_
  exact ⟨Function.update_of_ne other _ _, rfl, rfl, rfl, rfl, fun _ _ => rfl, fun _ => id,
    fun _ => And.intro, fun _ => id⟩

theorem inv_schedule (inv : Inv layout s) {c : Core} {next : Nat} (stage : s.stage c = .stubbed)
    (choice : s.post next = .pool ∨ next = s.idleThread c)
    (performed : perform layout s (.schedule c next) = some s') : Inv layout s' := by
  have ok := inv.cores c
  rw [stage] at ok
  by_cases resting : next = s.idleThread c
  · simp only [perform, if_pos resting, Option.some.injEq] at performed
    subst performed
    refine inv.enter rfl rfl rfl rfl (fun _ => id) inv.idle ⟨Or.inl ?_, ok⟩ fun d other => ?_
    · exact (Function.update_self _ _ _).trans resting
    · exact ⟨rfl, Function.update_of_ne other _ _, rfl, rfl, rfl, fun _ _ => rfl, fun _ => id,
        fun _ => And.intro, fun _ => id⟩
  · have waiting := choice.resolve_right resting
    simp only [perform, if_neg resting, Option.some.injEq] at performed
    subst performed
    have post_of (t : Nat) (post : Post) (here : s.post t = post) (other : post ≠ .pool) :
        Function.update s.post next (.core c) t = post :=
      (Function.update_of_ne (post_ne here waiting other) _ _).trans here
    refine inv.enter rfl rfl rfl rfl ?_ ?_ ⟨Or.inr ?_, ok⟩ fun d other => ?_
    · intro t whole
      by_cases this : t = next
      · rw [this, waiting]
        trivial
      · simpa only [Function.update_of_ne this] using whole
    · exact fun d => post_of _ _ (inv.idle d) (by simp)
    · simp only [Board.enter, Function.update_self]
    · exact ⟨rfl, Function.update_of_ne other _ _, rfl, rfl, rfl, fun _ _ => rfl,
        fun t here => post_of t _ here (by simp),
        fun t here tcb => ⟨post_of t _ here (by simp), tcb⟩, fun _ => id⟩

theorem inv_pendSv (inv : Inv layout s) {c : Core} (stage : s.stage c = .scheduled)
    (performed : perform layout s (.pendSv c) = some s') : Inv layout s' := by
  obtain rfl := Option.some.inj performed
  have ok := inv.cores c
  rw [stage] at ok
  refine inv.enter rfl rfl rfl rfl (fun _ => id) inv.idle ⟨?_, ?_, ?_⟩ fun d other => ?_
  · simp only [Board.enter, Function.update_self]
    exact ok.1
  · simp only [Board.enter, Function.update_self]
  · exact Function.update_self _ _ _
  · exact ⟨Function.update_of_ne other _ _, rfl, rfl, Function.update_of_ne other _ _,
      Function.update_of_ne other _ _, fun _ _ => rfl, fun _ => id, fun _ => And.intro,
      fun _ => id⟩

theorem inv_step (inv : Inv layout s) {event : Event} (guarded : Guard s event)
    (stepped : step layout s event = some s') : Inv layout s' := by
  by_cases enabled : Enabled s event
  · rw [step, if_pos enabled] at stepped
    cases event with
    | malloc cpu size =>
        obtain ⟨⟨heap, ptr⟩, answer, rfl⟩ := Option.map_eq_some_iff.mp stepped
        exact inv_malloc inv guarded answer
    | free cpu ptr => exact inv_free inv guarded stepped
    | addThread cpu newtcb stack =>
        obtain rfl := Option.some.inj stepped
        obtain ⟨_, tcb_free, stack_free, apart, live⟩ := enabled
        exact inv_addThread inv tcb_free stack_free apart live
    | dequeue cpu =>
        obtain rfl := Option.some.inj stepped
        exact inv_dequeue inv enabled.1 enabled.2
    | freeStack cpu => exact inv_freeStack inv enabled stepped
    | freeTcb cpu => exact inv_freeTcb inv enabled stepped
    | stub cpu => exact inv_stub inv enabled stepped
    | schedule cpu next => exact inv_schedule inv enabled.1 enabled.2 stepped
    | pendSv cpu => exact inv_pendSv inv enabled stepped
  · rw [step, if_neg enabled] at stepped
    exact nomatch stepped

variable [DecidableEq Sem]

omit [DecidableEq Sem] in
theorem entry_inv {m : Machine Sem} {q : Queues Sem} (inv : Serialized.Inv layout m q)
    (entry : Entry m s) : Inv layout s := by
  have idle_on (c : Core) : m.kernel.idleThread c ≠ null := (inv.started (entry.started c)).1
  have idle_post (c : Core) : postOf m (m.kernel.idleThread c) = .idle c := by
    cases c with
    | cpu0 => exact if_pos rfl
    | cpu1 =>
        have other : m.kernel.idleThread .cpu1 ≠ m.kernel.idleThread .cpu0 := fun same =>
          nomatch inv.base.idleApart _ _ (idle_on _) same
        rw [postOf, if_neg other, if_pos rfl]
  have current (c : Core) :
      m.kernel.runPt c = m.kernel.idleThread c ∨ postOf m (m.kernel.runPt c) = .core c := by
    by_cases resting : m.kernel.runPt c = m.kernel.idleThread c
    · exact Or.inl resting
    · right
      obtain ⟨_, _, here⟩ := inv.runs ⟨entry.started c, resting⟩
      have live : m.kernel.runPt c ∈ m.live := (inv.base.live _).mpr (by simp [here])
      have not_idle (d : Core) : m.kernel.runPt c ≠ m.kernel.idleThread d :=
        (inv.busy_not_idle ⟨entry.started c, resting⟩ (idle_on d)).symm
      rw [postOf, if_neg (not_idle .cpu0), if_neg (not_idle .cpu1), if_neg (not_not.mpr live)]
      cases c with
      | cpu0 => exact if_pos rfl
      | cpu1 =>
          have other : m.kernel.runPt .cpu1 ≠ m.kernel.runPt .cpu0 := fun same =>
            nomatch inv.current_apart (entry.started .cpu1) same
          rw [if_neg other, if_pos rfl]
  refine ⟨?_, ?_, ?_, ?_, fun c => ?_⟩
  · rw [entry.heap]
    exact inv.base.tracked
  · rw [entry.heap]
    exact entry.held
  · intro t whole
    rw [entry.post] at whole
    obtain ⟨live, ptr⟩ := entry.stack t whole
    obtain ⟨tcb, stack⟩ := entry.used t whole
    exact ⟨by rwa [entry.heap], by rwa [ptr], tcb⟩
  · rw [entry.post, entry.idleThread]
    exact idle_post
  · rw [entry.stage]
    refine ⟨?_, entry.onStack c, congrFun entry.handedOut c⟩
    rw [Selected, entry.post, entry.runPt, entry.idleThread]
    exact current c

theorem run_inv (reached : Reaches (step layout) Guard (Start layout) s) : Inv layout s := by
  refine reached.invariant (Inv layout) ?_ fun _ _ _ inv guarded stepped =>
    inv_step inv guarded stepped
  rintro s ⟨m, booted, entry⟩
  obtain ⟨q, inv⟩ := Serialized.run_inv booted
  exact entry_inv inv entry

/-- In every reachable state the block of the stack a core executes on is
allocated, and no part of it has been handed out, exactly when the core is not
between `kill`'s first `free` and its switch. -/
theorem stack_safe_iff (reached : Reaches (step layout) Guard (Start layout) s) (cpu : Core) :
    StackSafe layout s cpu ↔ ¬ Leaving (s.stage cpu) := by
  have inv := run_inv reached
  have ok := inv.cores cpu
  have safe (on : OnOwn s cpu) (whole : Whole (s.post (s.runPt cpu))) : StackSafe layout s cpu := by
    obtain ⟨i, leaf, same⟩ := inv.tracked.live _ (inv.owns _ whole).live
    exact ⟨⟨i, leaf, by rw [on.1, same]⟩, on.2⟩
  have unsafe_if (freed : Freed layout s cpu) : ¬ StackSafe layout s cpu := by
    rintro ⟨⟨i, leaf, same⟩, fresh⟩
    exact nomatch fresh.symm.trans (freed i leaf same)
  cases stage : s.stage cpu with
  | inThread =>
      rw [stage] at ok
      exact iff_of_true (safe ok.2 (ok.1.whole inv)) id
  | dequeued =>
      rw [stage] at ok
      have here : s.post (s.runPt cpu) = .core cpu := ok.1
      exact iff_of_true (safe ok.2 (by simp [here, Whole])) id
  | stackFreed =>
      rw [stage] at ok
      exact iff_of_false (unsafe_if ok.2) (not_not.mpr trivial)
  | tcbFreed | stubbed =>
      rw [stage] at ok
      exact iff_of_false (unsafe_if ok) (not_not.mpr trivial)
  | scheduled =>
      rw [stage] at ok
      exact iff_of_false (unsafe_if ok.2) (not_not.mpr trivial)

/-! Two threads, one on each core -/

def twoRunning : List (Call Unit) :=
  [.addThread 1024 1, .addThread 1024 1, .initScheduler .cpu0, .initScheduler .cpu1]

def tcbs (m : Machine Unit) : List Nat :=
  [m.kernel.idleThread .cpu0, m.kernel.idleThread .cpu1, m.kernel.runPt .cpu0, m.kernel.runPt .cpu1]

def blockAt (m : Machine Unit) (ptr : Nat) : Block :=
  (m.heap.live.find? fun block => block.ptr = ptr).getD ⟨ptr, 0⟩

def entered (m : Machine Unit) : Board where
  heap := m.heap
  stack t := blockAt m (m.kernel.stack t)
  runPt := m.kernel.runPt
  nextRunPt := m.kernel.nextRunPt
  idleThread := m.kernel.idleThread
  stage _ := .inThread
  post := postOf m
  usedAs p :=
    if p ∈ tcbs m then some (.tcb p)
    else ((tcbs m).find? fun t => m.kernel.stack t = p).map .stack
  onStack c := blockAt m (m.kernel.stack (m.kernel.runPt c))
  handedOut _ := false

def Settled (m : Machine Unit) : Prop :=
  (m.kernel.runPt .cpu0 ≠ null ∧ m.kernel.runPt .cpu1 ≠ null) ∧
    (∀ t ∈ m.live, t ∈ tcbs m) ∧
      ∀ t ∈ tcbs m, (∃ block ∈ m.heap.live, block.ptr = t) ∧
        blockAt m (m.kernel.stack t) ∈ m.heap.live ∧
        (blockAt m (m.kernel.stack t)).ptr = m.kernel.stack t ∧ m.kernel.stack t ∉ tcbs m ∧
        (tcbs m).find? (fun u => m.kernel.stack u = m.kernel.stack t) = some t

instance (m : Machine Unit) : Decidable (Settled m) :=
  inferInstanceAs (Decidable (_ ∧ (∀ t ∈ m.live, _) ∧ ∀ t ∈ tcbs m, _))

theorem entered_entry {m : Machine Unit} (settled : Settled m) : Entry m (entered m) := by
  obtain ⟨⟨first, second⟩, live, owned⟩ := settled
  have listed (t : Nat) (whole : Whole (postOf m t)) : t ∈ tcbs m := by
    by_contra other
    have not_live : t ∉ m.live := fun member => other (live t member)
    simp only [tcbs, List.mem_cons, List.not_mem_nil, or_false, not_or] at other
    rw [postOf, if_neg other.1, if_neg other.2.1, if_pos not_live] at whole
    exact whole
  constructor
  · rfl
  · rfl
  · rfl
  · intro c
    cases c with
    | cpu0 => exact first
    | cpu1 => exact second
  · rfl
  · rfl
  · intro t whole
    obtain ⟨_, stack, ptr, _⟩ := owned t (listed t whole)
    exact ⟨stack, ptr⟩
  · intro t whole
    obtain ⟨_, _, _, apart, found⟩ := owned t (listed t whole)
    refine ⟨if_pos (listed t whole), ?_⟩
    simp only [entered, if_neg apart, found, Option.map_some]
  · intro p used
    by_cases tcb : p ∈ tcbs m
    · exact (owned p tcb).1
    · simp only [entered, if_neg tcb] at used
      have some_owner : (tcbs m).find? (fun t => m.kernel.stack t = p) ≠ none :=
        fun absent => used (by rw [absent]; rfl)
      obtain ⟨t, found⟩ := Option.ne_none_iff_exists'.mp some_owner
      have member := List.mem_of_find?_eq_some found
      obtain rfl : m.kernel.stack t = p := by simpa using List.find?_some found
      obtain ⟨_, stack, ptr, _⟩ := owned t member
      exact ⟨_, stack, ptr⟩
  · exact fun _ => rfl
  · rfl

theorem entered_start {m : Machine Unit}
    (booted : exec (Serialized.step Serialized.board) reset twoRunning = some m)
    (settled : Settled m) : Start Serialized.board (entered m) := by
  have guarded : Allowed (Serialized.step Serialized.board) (Serialized.Guard Serialized.board)
      reset twoRunning := by
    decide +kernel
  exact ⟨m, exec_reaches twoRunning (.start reset_powerOn) guarded booted, entered_entry settled⟩

def killed (m : Machine Unit) : List Event :=
  [.dequeue .cpu0, .malloc .cpu1 100, .freeStack .cpu0, .freeTcb .cpu0, .stub .cpu0,
    .schedule .cpu0 (m.kernel.idleThread .cpu0), .pendSv .cpu0]

def allocatedEarly : List Event := [.dequeue .cpu0, .freeStack .cpu0, .malloc .cpu1 1024]

theorem stack_safe_after_kill :
    ∃ s : Board, s.heap.live.length = 7 ∧ StackSafe Serialized.board s .cpu0 := by
  obtain ⟨m, booted, settled, s, executed, seven, stage, allowed⟩ :
      ∃ m ∈ exec (Serialized.step Serialized.board) reset twoRunning, Settled m ∧
        ∃ s ∈ exec (step Serialized.board) (entered m) (killed m),
          s.heap.live.length = 7 ∧ s.stage .cpu0 = .inThread ∧
            Allowed (step Serialized.board) Guard (entered m) (killed m) := by
    decide +kernel
  have reached := exec_reaches (killed m) (.start (entered_start booted settled)) allowed executed
  exact ⟨s, seven, (stack_safe_iff reached .cpu0).mpr (by simp [stage, Leaving])⟩

/-- Core 1 is given the block that core 0 still runs on. -/
theorem running_stack_handed_out :
    ∃ s, Reaches (step Serialized.board) Guard (Start Serialized.board) s ∧
      ∃ cpu, s.usedAs (s.onStack cpu).ptr = some .caller ∧ ¬ StackSafe Serialized.board s cpu := by
  obtain ⟨m, booted, settled, s, executed, given, handed, allowed⟩ :
      ∃ m ∈ exec (Serialized.step Serialized.board) reset twoRunning, Settled m ∧
        ∃ s ∈ exec (step Serialized.board) (entered m) allocatedEarly,
          s.usedAs (s.onStack .cpu0).ptr = some .caller ∧ s.handedOut .cpu0 = true ∧
            Allowed (step Serialized.board) Guard (entered m) allocatedEarly := by
    decide +kernel
  refine ⟨s, exec_reaches allocatedEarly (.start (entered_start booted settled)) allowed executed,
    .cpu0, given, ?_⟩
  rintro ⟨_, fresh⟩
  exact nomatch fresh.symm.trans handed

end MulticoreRtos.StackReuse
