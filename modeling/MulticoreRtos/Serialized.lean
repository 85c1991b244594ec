import MulticoreRtos.HeapRuns
import MulticoreRtos.Dispatch

/-!
The serialized machine: one step is one complete call into the scheduler with
the context switch it asks for. `add_thread`, `init_scheduler` and `kill` work
on the allocator of `os/heap.c`. No call is under way between two steps, so
`heap_lock` is free at each `b_wait` of a step, but threads may wait on it.
-/

namespace MulticoreRtos.Serialized

open Scheduler Transition
open Heap (null)

/-- What the linker and the static data fix. -/
structure Layout (Sem : Type) where
  place : Heap.Placement
  blackHole : Nat
  heapLock : Sem
  present : blackHole ≠ null
  outside : blackHole < place.heapPtr ∨ place.heapPtr + Heap.heapSize ≤ blackHole

def sizeofTcb : Nat := 28

/-- One dispatch: the kernel with the caller's own thread put back, the core and
the thread selected for it, and the threads there were. -/
structure Decision (Sem : Type) where
  entry : Kernel Sem
  cpu : Core
  chosen : Nat
  live : Finset Nat

/-- `live` and `decisions` are history: the threads made by `add_thread` and not
yet removed by `kill`, and the dispatches up to now. -/
structure Machine (Sem : Type) where
  kernel : Kernel Sem
  heap : Heap.State
  live : Finset Nat
  decisions : List (Decision Sem)

inductive Call (Sem : Type) where
  | initScheduler (cpu : Core)
  | addThread (stackSize priority : Nat)
  | schedule (cpu : Core) (times : Readings)
  | schedBlock (cpu : Core) (sem : Sem) (times : Readings)
  | schedUnblock (cpu : Core) (sem : Sem)
  | sleep (cpu : Core) (now sleepTime : Nat) (times : Readings)
  | unsleep (first second : Nat)
  | kill (cpu : Core) (freeStack freeTcb last : Readings)

variable {Sem : Type}

def allocate (place : Heap.Placement) (heap : Heap.State) (size : Nat) :
    Option (Heap.State × Nat) := do
  let (_, ptr) ← Heap.malloc place.heapPtr heap.tree size
  let heap ← Heap.step place heap (.malloc size)
  some (heap, ptr)

def runSchedule (m : Machine Sem) (cpu : Core) (times : Readings) : Option (Machine Sem) :=
  (schedule m.kernel cpu times).map fun k =>
    { m with
      kernel := k
      decisions := ⟨settle m.kernel cpu times.exitIdle, cpu, k.nextRunPt cpu, m.live⟩ ::
        m.decisions }

/-- The core's PendSV, once interrupts are enabled again. -/
def switch (m : Machine Sem) (cpu : Core) (sp : Nat) : Machine Sem :=
  if m.kernel.pendSv cpu then { m with kernel := pendSvHandler m.kernel cpu sp } else m

def suspend (m : Machine Sem) (cpu : Core) (times : Readings) : Option (Machine Sem) :=
  (runSchedule m cpu times).map fun m => switch m cpu times.sp

def initScheduler (layout : Layout Sem) (m : Machine Sem) (cpu : Core) :
    Option (Machine Sem) := do
  let (heap, idleTcb) ← allocate layout.place m.heap sizeofTcb
  if idleTcb = null then
    some { m with heap, kernel := { m.kernel with schedulerHeld := true } }
  else
    let (heap, stack) ← allocate layout.place heap 128
    if stack = null then
      some { m with heap, kernel := { m.kernel with schedulerHeld := true } }
    else
      let k := setupIdle m.kernel cpu idleTcb stack
      (firstDispatch k cpu).map fun launched =>
        { m with
          heap
          kernel := launched
          decisions := ⟨k, cpu, launched.runPt cpu, m.live⟩ :: m.decisions }

def addThread (layout : Layout Sem) (m : Machine Sem) (stackSize priority : Nat) :
    Option (Machine Sem) :=
  if priorityLvlCnt ≤ priority then
    -- this return comes after `lock(SCHEDULER)`
    some { m with kernel := { m.kernel with schedulerHeld := true } }
  else do
    let (heap, newtcb) ← allocate layout.place m.heap sizeofTcb
    if newtcb = null then some { m with heap }
    else
      let (heap, stack) ← allocate layout.place heap stackSize
      if stack = null then
        (Heap.step layout.place heap (.free newtcb)).map fun heap => { m with heap }
      else
        some { m with
          heap
          kernel := Scheduler.addThread m.kernel newtcb stack stackSize priority
          live := insert newtcb m.live }

variable [DecidableEq Sem]

/-- `b_signal` from its test of `bthreads_root` on. -/
def bSignal (m : Machine Sem) (cpu : Core) (sem : Sem) (times : Readings) :
    Option (Machine Sem) :=
  if m.kernel.bthreadsRoot sem = null then some m
  else do
    let (kernel, higher) ← schedUnblock m.kernel cpu sem
    if higher then runSchedule { m with kernel } cpu times else some { m with kernel }

def free (layout : Layout Sem) (m : Machine Sem) (cpu : Core) (ptr : Nat) (times : Readings) :
    Option (Machine Sem) :=
  if m.heap.tree 0 = null then some m
  else do
    let heap ← Heap.step layout.place m.heap (.free ptr)
    bSignal { m with heap } cpu layout.heapLock times

def retire (m : Machine Sem) (thread : Nat) : Machine Sem :=
  let shared := dequeueThread m.kernel.toShared thread
  { m with
    kernel := { m.kernel with
      toShared := { shared with state := Function.update shared.state thread .dead } }
    live := m.live.erase thread }

def kill (layout : Layout Sem) (m : Machine Sem) (cpu : Core)
    (freeStack freeTcb last : Readings) : Option (Machine Sem) := do
  let thread := m.kernel.runPt cpu
  let m := retire m thread
  let m ← free layout m cpu (m.kernel.stack thread) freeStack
  let m ← free layout m cpu thread freeTcb
  -- the stub takes the context that the switch would write to freed memory
  let runPt := Function.update m.kernel.runPt cpu layout.blackHole
  let m ← runSchedule { m with kernel := { m.kernel with runPt } } cpu last
  some (switch m cpu last.sp)

def NonIdle (k : Kernel Sem) (cpu : Core) : Prop :=
  k.runPt cpu ≠ null ∧ k.runPt cpu ≠ k.idleThread cpu

/-- The calls that can be made and that can complete. A `malloc` under
`SCHEDULER` completes only while nobody waits on `heap_lock`: its `b_signal`
would take `SCHEDULER` again. -/
def Enabled (layout : Layout Sem) (m : Machine Sem) : Call Sem → Prop
  | .initScheduler cpu =>
      m.kernel.runPt cpu = null ∧ m.kernel.bthreadsRoot layout.heapLock = null
  | .addThread _ priority =>
      priority < priorityLvlCnt → m.kernel.bthreadsRoot layout.heapLock = null
  | .schedule cpu _ => m.kernel.runPt cpu ≠ null
  | .schedBlock cpu _ _ => NonIdle m.kernel cpu
  | .schedUnblock cpu sem => m.kernel.runPt cpu ≠ null ∧ m.kernel.bthreadsRoot sem ≠ null
  | .sleep cpu _ _ _ => NonIdle m.kernel cpu
  | .unsleep _ _ => True
  | .kill cpu _ _ _ => NonIdle m.kernel cpu

instance (k : Kernel Sem) (cpu : Core) : Decidable (NonIdle k cpu) :=
  inferInstanceAs (Decidable (_ ∧ _))

instance (layout : Layout Sem) (m : Machine Sem) (call : Call Sem) :
    Decidable (Enabled layout m call) :=
  match call with
  | .initScheduler _ => inferInstanceAs (Decidable (_ ∧ _))
  | .addThread _ _ => inferInstanceAs (Decidable (_ → _))
  | .schedule _ _ => inferInstanceAs (Decidable (_ ≠ _))
  | .schedBlock cpu _ _ => inferInstanceAs (Decidable (NonIdle m.kernel cpu))
  | .schedUnblock _ _ => inferInstanceAs (Decidable (_ ∧ _))
  | .sleep cpu _ _ _ => inferInstanceAs (Decidable (NonIdle m.kernel cpu))
  | .unsleep _ _ => inferInstanceAs (Decidable True)
  | .kill cpu _ _ _ => inferInstanceAs (Decidable (NonIdle m.kernel cpu))

def perform (layout : Layout Sem) (m : Machine Sem) : Call Sem → Option (Machine Sem)
  | .initScheduler cpu => initScheduler layout m cpu
  | .addThread stackSize priority => addThread layout m stackSize priority
  | .schedule cpu times => suspend m cpu times
  | .schedBlock cpu sem times => do
      let kernel ← schedBlock m.kernel cpu sem
      suspend { m with kernel } cpu times
  | .schedUnblock cpu sem => do
      let (kernel, _) ← schedUnblock m.kernel cpu sem
      some { m with kernel }
  | .sleep cpu now sleepTime times =>
      if sleepTime = 0 then some m
      else do
        let kernel ← sleep m.kernel cpu now sleepTime
        suspend { m with kernel } cpu times
  | .unsleep first second => some { m with kernel := unsleep m.kernel first second }
  | .kill cpu freeStack freeTcb last => kill layout m cpu freeStack freeTcb last

def step (layout : Layout Sem) (m : Machine Sem) (call : Call Sem) : Option (Machine Sem) :=
  if m.kernel.schedulerHeld then none
  else if Enabled layout m call then perform layout m call else none

omit [DecidableEq Sem]

/-- Static data as the loader leaves it; the heap's bytes may hold anything. -/
structure PowerOn (layout : Layout Sem) (m : Machine Sem) : Prop where
  roots : m.kernel.threadSchedule = fun _ => null
  sleepers : m.kernel.sleepScheduleRoot = null
  waiters : m.kernel.bthreadsRoot = fun _ => null
  actives : m.kernel.activePriorityCount = fun _ => 0
  runners : m.kernel.runningPriorityCount = fun _ => 0
  current : m.kernel.runPt = fun _ => null
  idleThread : m.kernel.idleThread = fun _ => null
  pendSv : m.kernel.pendSv = fun _ => false
  schedulerHeld : m.kernel.schedulerHeld = false
  blackHole : m.kernel.state layout.blackHole = .dead
  heap : m.heap = Heap.initial
  live : m.live = ∅
  decisions : m.decisions = []

/-! What a completed call can have done to the kernel -/

section Outcomes
variable {layout : Layout Sem} {m m' : Machine Sem} {cpu : Core} {times : Readings}

theorem addThread_kernel {stackSize priority : Nat}
    (added : addThread layout m stackSize priority = some m') :
    m'.kernel = m.kernel ∨ m'.kernel = { m.kernel with schedulerHeld := true } ∨
      ∃ newtcb stack, m'.kernel = Scheduler.addThread m.kernel newtcb stack stackSize priority := by
  unfold addThread at added
  split at added
  · rw [← Option.some.inj added]
    exact Or.inr (Or.inl rfl)
  · obtain ⟨⟨heap, newtcb⟩, _, added⟩ := Option.bind_eq_some_iff.mp added
    dsimp only at added
    split at added
    · rw [← Option.some.inj added]
      exact Or.inl rfl
    · obtain ⟨⟨heap', stack⟩, _, added⟩ := Option.bind_eq_some_iff.mp added
      dsimp only at added
      split at added
      · obtain ⟨_, _, rfl⟩ := Option.map_eq_some_iff.mp added
        exact Or.inl rfl
      · rw [← Option.some.inj added]
        exact Or.inr (Or.inr ⟨newtcb, stack, rfl⟩)

theorem initScheduler_kernel (launched : initScheduler layout m cpu = some m') :
    m'.kernel = { m.kernel with schedulerHeld := true } ∨
      ∃ idleTcb stack, firstDispatch (setupIdle m.kernel cpu idleTcb stack) cpu = some m'.kernel := by
  obtain ⟨⟨heap, idleTcb⟩, _, launched⟩ := Option.bind_eq_some_iff.mp launched
  dsimp only at launched
  split at launched
  · rw [← Option.some.inj launched]
    exact Or.inl rfl
  · obtain ⟨⟨heap', stack⟩, _, launched⟩ := Option.bind_eq_some_iff.mp launched
    dsimp only at launched
    split at launched
    · rw [← Option.some.inj launched]
      exact Or.inl rfl
    · obtain ⟨k, dispatched, rfl⟩ := Option.map_eq_some_iff.mp launched
      exact Or.inr ⟨idleTcb, stack, dispatched⟩

variable [DecidableEq Sem] {sem : Sem}

theorem schedUnblock_kernel {k k' : Kernel Sem} {higher : Bool}
    (unblocked : schedUnblock k cpu sem = some (k', higher)) :
    k' = { k with toShared := unblockShared k.toShared sem } := by
  unfold schedUnblock at unblocked
  dsimp only at unblocked
  split at unblocked
  · cases unblocked
  · exact (Prod.mk.inj (Option.some.inj unblocked)).1.symm

/-- A waiter may have been woken, and then `schedule()` may have run. -/
theorem bSignal_kernel (signalled : bSignal m cpu sem times = some m') :
    m'.kernel = m.kernel ∨
      ∃ woken : Machine Sem,
        woken.kernel = { m.kernel with toShared := unblockShared m.kernel.toShared sem } ∧
        (m' = woken ∨ runSchedule woken cpu times = some m') := by
  unfold bSignal at signalled
  split at signalled
  · rw [← Option.some.inj signalled]
    exact Or.inl rfl
  · obtain ⟨⟨kernel, higher⟩, unblocked, signalled⟩ := Option.bind_eq_some_iff.mp signalled
    refine Or.inr ⟨{ m with kernel }, schedUnblock_kernel unblocked, ?_⟩
    dsimp only at signalled
    split at signalled
    · exact Or.inr signalled
    · exact Or.inl (Option.some.inj signalled).symm

theorem free_kernel {ptr : Nat} (released : free layout m cpu ptr times = some m') :
    m' = m ∨ ∃ heap, bSignal { m with heap } cpu layout.heapLock times = some m' := by
  unfold free at released
  split at released
  · exact Or.inl (Option.some.inj released).symm
  · obtain ⟨heap, _, signalled⟩ := Option.bind_eq_some_iff.mp released
    exact Or.inr ⟨heap, signalled⟩

end Outcomes

end MulticoreRtos.Serialized
