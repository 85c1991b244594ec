import MulticoreRtos.Heap
import MulticoreRtos.LinkedList

/-!
The scheduler of `os/schedule.c` and the PendSV switch of `os/interrupts.c`. A
TCB pointer is its address, and every field of a TCB is a map from addresses.
`Shared` is the memory behind the `SCHEDULER` lock; each function on it, or on
the whole `Kernel`, is one section under that lock. `none` is a pass over the
end of an array, a read through `NULL` or a list walk that never ends.
-/

namespace MulticoreRtos.Scheduler

open LinkedList
open Heap (null)

inductive Core where
  | cpu0
  | cpu1
  deriving DecidableEq

def Core.other : Core → Core
  | .cpu0 => .cpu1
  | .cpu1 => .cpu0

inductive ThreadState where
  | running
  | active
  | sleeping
  | blocked
  | dead
  | idle
  deriving DecidableEq

def priorityLvlCnt : Nat := 5
def idlePriority : Nat := priorityLvlCnt

structure Shared (Sem : Type) where
  nextTcb : Nat → Nat
  prevTcb : Nat → Nat
  state : Nat → ThreadState
  resumeTick : Nat → Nat
  priority : Nat → Nat
  activePriorityCount : Nat → Nat
  runningPriorityCount : Nat → Nat
  threadSchedule : Nat → Nat
  sleepScheduleRoot : Nat
  bthreadsRoot : Sem → Nat

structure Kernel (Sem : Type) extends Shared Sem where
  sp : Nat → Nat
  id : Nat → Nat
  stack : Nat → Nat
  runPt : Core → Nat
  nextRunPt : Core → Nat
  idleThread : Core → Nat
  idleTime : Core → Nat
  idleTimeStart : Core → Nat
  lifetimeThreadCount : Nat
  alarm0 : Nat
  pendSv : Core → Bool
  -- a path of the source that returns without `unlock(SCHEDULER)` has been taken
  schedulerHeld : Bool

variable {Sem : Type}

/-- `uint16_t` counters. -/
def increment (count : Nat) : Nat := (count + 1) % 2 ^ 16

def decrement (count : Nat) : Nat := (count + (2 ^ 16 - 1)) % 2 ^ 16

def enqueueThread (k : Shared Sem) (thread : Nat) : Shared Sem :=
  let priority := k.priority thread
  let root := k.threadSchedule priority
  let linked : Shared Sem :=
    if root = null then
      { k with
        nextTcb := Function.update k.nextTcb thread thread
        prevTcb := Function.update k.prevTcb thread thread }
    else
      { k with
        nextTcb := Function.update (Function.update k.nextTcb thread root) (k.prevTcb root) thread
        prevTcb := Function.update (Function.update k.prevTcb thread (k.prevTcb root)) root thread }
  { linked with
    threadSchedule := Function.update k.threadSchedule priority thread
    state := Function.update k.state thread .active
    activePriorityCount :=
      Function.update k.activePriorityCount priority (increment (k.activePriorityCount priority)) }

def dropRunning (k : Shared Sem) (thread : Nat) : Shared Sem :=
  if k.state thread = .running then
    { k with
      runningPriorityCount := Function.update k.runningPriorityCount (k.priority thread)
        (decrement (k.runningPriorityCount (k.priority thread))) }
  else k

/-- The unlinking: the counters alone tell a ring of one thread from a longer
one. -/
def unlinkThread (k : Shared Sem) (thread : Nat) : Shared Sem :=
  if k.activePriorityCount (k.priority thread) = 0 ∧
      k.runningPriorityCount (k.priority thread) = 0 then
    { k with
      threadSchedule := Function.update k.threadSchedule (k.priority thread) null
      nextTcb := Function.update k.nextTcb thread null }
  else
    { k with
      threadSchedule := Function.update k.threadSchedule (k.priority thread) (k.nextTcb thread)
      nextTcb := Function.update
        (Function.update k.nextTcb (k.prevTcb thread) (k.nextTcb thread)) thread null
      prevTcb := Function.update k.prevTcb (k.nextTcb thread) (k.prevTcb thread) }

def dequeueThread (k : Shared Sem) (thread : Nat) : Shared Sem :=
  unlinkThread (dropRunning k thread) thread

/-- "update current thread / put it back into schedule" -/
def putBack (k : Shared Sem) (thread : Nat) : Shared Sem :=
  if k.state thread = .running then
    let priority := k.priority thread
    { k with
      state := Function.update k.state thread .active
      activePriorityCount :=
        Function.update k.activePriorityCount priority (increment (k.activePriorityCount priority))
      runningPriorityCount := Function.update k.runningPriorityCount priority
        (decrement (k.runningPriorityCount priority)) }
  else k

def firstActive (count : Nat → Nat) : Option Nat :=
  (List.range (idlePriority + 1)).find? fun pri => count pri ≠ 0

def markRunning (k : Shared Sem) (pri thread : Nat) : Shared Sem :=
  { k with
    state := Function.update k.state thread .running
    activePriorityCount :=
      Function.update k.activePriorityCount pri (decrement (k.activePriorityCount pri))
    runningPriorityCount :=
      Function.update k.runningPriorityCount pri (increment (k.runningPriorityCount pri)) }

def takeRoot (k : Shared Sem) (pri : Nat) : Shared Sem × Nat :=
  let thread := k.threadSchedule pri
  (markRunning
    { k with threadSchedule := Function.update k.threadSchedule pri (k.nextTcb thread) } pri thread,
    thread)

/-- `schedule()` passes over a root that runs on the other core. -/
def takeThread (k : Shared Sem) (pri : Nat) : Shared Sem × Nat :=
  let root := k.threadSchedule pri
  if k.state root = .running then (markRunning k pri (k.nextTcb root), k.nextTcb root)
  else takeRoot k pri

def enterIdle (k : Kernel Sem) (cpu : Core) (now : Nat) : Kernel Sem :=
  { k with idleTimeStart := Function.update k.idleTimeStart cpu now }

def exitIdle (k : Kernel Sem) (cpu : Core) (now : Nat) : Kernel Sem :=
  { k with
    idleTime := Function.update k.idleTime cpu
      ((k.idleTime cpu + (now + 2 ^ 64 - k.idleTimeStart cpu)) % 2 ^ 64) }

/-- What one call of `schedule()` and the switch after it read: the clock, and
the stack pointer once the context has been pushed. -/
structure Readings where
  exitIdle : Nat
  enterIdle : Nat
  sp : Nat

/-- The part of `schedule()` up to the scan. -/
def settle (k : Kernel Sem) (cpu : Core) (now : Nat) : Kernel Sem :=
  let k := if k.state (k.runPt cpu) = .idle then exitIdle k cpu now else k
  { k with toShared := putBack k.toShared (k.runPt cpu) }

def selectNext (k : Kernel Sem) (cpu : Core) (now : Nat) : Option (Kernel Sem) :=
  (firstActive k.activePriorityCount).map fun pri =>
    if pri = idlePriority then
      let k := { k with nextRunPt := Function.update k.nextRunPt cpu (k.idleThread cpu) }
      { enterIdle k cpu now with pendSv := Function.update k.pendSv cpu true }
    else
      let (shared, thread) := takeThread k.toShared pri
      { k with
        toShared := shared
        nextRunPt := Function.update k.nextRunPt cpu thread
        pendSv := Function.update k.pendSv cpu true }

def schedule (k : Kernel Sem) (cpu : Core) (times : Readings) : Option (Kernel Sem) :=
  selectNext (settle k cpu times.exitIdle) cpu times.enterIdle

def pendSvHandler (k : Kernel Sem) (cpu : Core) (sp : Nat) : Kernel Sem :=
  { k with
    sp := Function.update k.sp (k.runPt cpu) sp
    runPt := Function.update k.runPt cpu (k.nextRunPt cpu)
    pendSv := Function.update k.pendSv cpu false }

/-- "initialize idle task", with the two answers of `malloc` -/
def setupIdle (k : Kernel Sem) (cpu : Core) (idleTcb stack : Nat) : Kernel Sem :=
  { k with
    id := Function.update k.id idleTcb 0
    priority := Function.update k.priority idleTcb idlePriority
    state := Function.update k.state idleTcb .idle
    stack := Function.update k.stack idleTcb stack
    sp := Function.update k.sp idleTcb (stack + (128 - 64))
    idleThread := Function.update k.idleThread cpu idleTcb
    activePriorityCount := Function.update k.activePriorityCount idlePriority 1 }

/-- "select first thread": unlike `schedule()`, this takes the root without a
look at its state. -/
def firstDispatch (k : Kernel Sem) (cpu : Core) : Option (Kernel Sem) :=
  (firstActive k.activePriorityCount).map fun pri =>
    if pri = idlePriority then
      { k with runPt := Function.update k.runPt cpu (k.idleThread cpu) }
    else
      let (shared, thread) := takeRoot k.toShared pri
      { k with toShared := shared, runPt := Function.update k.runPt cpu thread }

/-- `add_thread` from the two answers of `malloc` on, neither of them `NULL`. -/
def addThread (k : Kernel Sem) (newtcb stack stackSize priority : Nat) : Kernel Sem :=
  let count := (k.lifetimeThreadCount + 1) % 2 ^ 32
  let k := { k with
    lifetimeThreadCount := count
    id := Function.update k.id newtcb (count % 2 ^ 8)
    priority := Function.update k.priority newtcb priority
    stack := Function.update k.stack newtcb stack
    sp := Function.update k.sp newtcb ((stack + stackSize + (2 ^ 32 - 64)) % 2 ^ 32) }
  { k with toShared := enqueueThread k.toShared newtcb }

/-- More passes than there are blocks in the heap. -/
def walkFuel : Nat := Heap.heapTreeNodeCnt

def insertThread (key : Nat → Nat) (next : Nat → Nat) (root thread : Nat) :
    Option ((Nat → Nat) × Nat) :=
  if root = null then some (next, thread)
  else if key thread < key root then some (Function.update next thread root, thread)
  else (walkInsert null key thread walkFuel next root).map fun next => (next, root)

variable [DecidableEq Sem]

/-- The section of `sched_block` before its call of `schedule()`. -/
def schedBlock (k : Kernel Sem) (cpu : Core) (sem : Sem) : Option (Kernel Sem) :=
  let thread := k.runPt cpu
  let shared := dequeueThread k.toShared thread
  (insertThread shared.priority shared.nextTcb (shared.bthreadsRoot sem) thread).map
    fun (next, root) =>
      { k with toShared := { shared with
          state := Function.update shared.state thread .blocked
          nextTcb := next
          bthreadsRoot := Function.update shared.bthreadsRoot sem root } }

def unblockShared (k : Shared Sem) (sem : Sem) : Shared Sem :=
  let thread := k.bthreadsRoot sem
  enqueueThread
    { k with bthreadsRoot := Function.update k.bthreadsRoot sem (k.nextTcb thread) } thread

def schedUnblock (k : Kernel Sem) (cpu : Core) (sem : Sem) : Option (Kernel Sem × Bool) :=
  let thread := k.bthreadsRoot sem
  if thread = null then none
  else
    let k := { k with toShared := unblockShared k.toShared sem }
    some (k, decide (k.priority (k.runPt cpu) ≤ k.priority thread))

omit [DecidableEq Sem]

/-- `resume_tick` takes the low 32 bits. -/
def tickAfter (now sleepTime : Nat) : Nat := (now % 2 ^ 64 + sleepTime * 1000 % 2 ^ 32) % 2 ^ 32

/-- The section of `sleep` before its call of `schedule()`, for a time other
than 0; `now` is the microsecond clock. -/
def sleep (k : Kernel Sem) (cpu : Core) (now sleepTime : Nat) : Option (Kernel Sem) :=
  let thread := k.runPt cpu
  let tick := tickAfter now sleepTime
  let shared := dequeueThread { k.toShared with
    resumeTick := Function.update k.resumeTick thread tick } thread
  (insertThread shared.resumeTick shared.nextTcb shared.sleepScheduleRoot thread).map
    fun (next, root) =>
      { k with
        toShared := { shared with
          state := Function.update shared.state thread .sleeping
          nextTcb := next
          sleepScheduleRoot := root }
        -- the timer is armed when the thread becomes the head
        alarm0 := if root = thread then tick else k.alarm0 }

/-- The alarm for the next sleeper; `first` and `second` are the clock at its
readings. -/
def rearm (k : Kernel Sem) (root first second : Nat) : Nat :=
  if root = null then k.alarm0
  else if k.resumeTick root < (first % 2 ^ 64 + 10) % 2 ^ 64 then
    (second % 2 ^ 64 + 10) % 2 ^ 64 % 2 ^ 32
  else k.resumeTick root

def unsleep (k : Kernel Sem) (first second : Nat) : Kernel Sem :=
  let thread := k.sleepScheduleRoot
  if thread = null then k
  else
    let root := k.nextTcb thread
    { k with
      toShared := enqueueThread { k.toShared with sleepScheduleRoot := root } thread
      alarm0 := rearm k root first second }

end MulticoreRtos.Scheduler
