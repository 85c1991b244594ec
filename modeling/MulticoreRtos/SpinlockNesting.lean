import MulticoreRtos.LockDiscipline
import MulticoreRtos.Serialized

/-!
The spinlocks of `os/semaphore.h` and `hw/hwctrl.h` through every layer that nests
them: allocator, semaphores, scheduler, periodic tasks, the RX FIFO and the
handlers of `os/interrupts.c`, on both cores, instruction by instruction as far
as locks, interrupt masks and semaphore values go. The lists, the heap tree and
the timers hold no lock of their own: what the code reads from them is an
answer that the run may choose, and what it writes to them is left out. A
function that only calls functions of this module (`calloc`, `fifo_init`,
`fifo_get`) is part of user code, which may make the same calls.
-/

namespace MulticoreRtos.SpinlockNesting

open LockDiscipline Transition
open Scheduler (Core priorityLvlCnt)
open Serialized (sizeofTcb)
open Heap (heapSize)

/-- `SCHEDULER`, `BGSCHEDULER`, `COUNTING_SEMA4` and `SPINLOCK31`. -/
inductive Lock where
  | scheduler
  | bgScheduler
  | countingSema4
  | spinlock31
  deriving DecidableEq

inductive Sem where
  | heapLock
  | mutex (fifo : Nat)
  | full (fifo : Nat)
  | empty (fifo : Nat)
  | user (id : Nat)
  deriving DecidableEq

inductive Ask where
  -- `sem->value != 0`
  | value (sem : Sem)
  -- `sem->bthreads_root != NULL`
  | waiters (sem : Sem)
  -- `thread->priority >= RunPt[cpu]->priority`
  | outranked
  -- the search of the heap tree finds a node
  | found
  -- `heap_tree[0] == NULL`
  | heapEmpty
  -- `SleepScheduleRoot == NULL`
  | noSleeper
  | txInterrupt
  | rxInterrupt
  | rxEmpty

inductive Effect where
  | store (sem : Sem) (value : Int32)
  | increment (sem : Sem)
  | decrement (sem : Sem)

inductive Fn where
  | malloc (size : Nat)
  | free
  | heapStats
  | initSemaphore (sem : Sem) (value : Int32)
  | bWait (sem : Sem)
  | bSignal (sem : Sem)
  | cWait (sem : Sem)
  -- the `while` of `c_wait`
  | cWaitLoop (sem : Sem)
  | cSignal (sem : Sem)
  | initScheduler
  | schedule
  | addThread (stackSize priority : Nat)
  | schedBlock (sem : Sem)
  | schedUnblock (sem : Sem)
  | sleep (sleepTime : Nat)
  | unsleep
  | kill
  | schedulerStats
  | scheduleBackground
  | addPeriodicTask
  | fifoPut (fifo : Nat)
  | uartRxInterrupt
  deriving DecidableEq

inductive Handler where
  | systick
  | timer0
  | timer1
  | uart0

abbrev Stmt := Prog Lock Fn Ask Effect

def startCritical (next : Bool → Stmt) : Stmt :=
  .readMask fun primask => .setMask true (next primask)

def endCritical (primask : Bool) (next : Stmt) : Stmt := .setMask primask next

def enableInterrupts (next : Stmt) : Stmt := .setMask false next

def disableInterrupts (next : Stmt) : Stmt := .setMask true next

def atomicTestAndSet (sem : Sem) (next : Bool → Stmt) : Stmt :=
  startCritical fun primask => .lock .spinlock31 (.ask (.value sem) fun rv =>
    .effect (.store sem 1) (.unlock .spinlock31 (endCritical primask (next rv))))

def atomicClear (sem : Sem) (next : Stmt) : Stmt :=
  startCritical fun primask => .lock .spinlock31 (.effect (.store sem 0)
    (.unlock .spinlock31 (endCritical primask next)))

def bWait (sem : Sem) : Stmt :=
  atomicTestAndSet sem fun taken =>
    if taken then .call (.schedBlock sem) fun _ => .call (.bWait sem) fun _ => .ret false
    else .ret false

def wake (sem : Sem) (next : Stmt) : Stmt :=
  .ask (.waiters sem) fun waiting =>
    if waiting then
      .call (.schedUnblock sem) fun higher =>
        if higher then .call .schedule fun _ => next else next
    else next

def bSignal (sem : Sem) : Stmt :=
  startCritical fun stat => atomicClear sem (wake sem (endCritical stat (.ret false)))

def cWaitLoop (sem : Sem) : Stmt :=
  .ask (.value sem) fun nonzero =>
    if nonzero then .ret false
    else
      .unlock .countingSema4 (enableInterrupts (.call (.schedBlock sem) fun _ =>
        disableInterrupts (.lock .countingSema4 (.call (.cWaitLoop sem) fun _ => .ret false))))

def cWait (sem : Sem) : Stmt :=
  startCritical fun stat => .lock .countingSema4 (.call (.cWaitLoop sem) fun _ =>
    .effect (.decrement sem) (.unlock .countingSema4 (endCritical stat (.ret false))))

def cSignal (sem : Sem) : Stmt :=
  startCritical fun stat => .lock .countingSema4 (.effect (.increment sem)
    (wake sem (.unlock .countingSema4 (endCritical stat (.ret false)))))

/-- The answer is whether the pointer is `NULL`. -/
def malloc (size : Nat) : Stmt :=
  if heapSize < size then .ret true
  else
    .call (.bWait .heapLock) fun _ => .ask .found fun found =>
      .call (.bSignal .heapLock) fun _ => .ret (!found)

def free : Stmt :=
  .ask .heapEmpty fun empty =>
    if empty then .ret true
    else
      .call (.bWait .heapLock) fun _ => .ask .found fun found =>
        .call (.bSignal .heapLock) fun _ => .ret (!found)

def heapStats : Stmt :=
  .call (.bWait .heapLock) fun _ => .call (.bSignal .heapLock) fun _ => .ret false

def schedule : Stmt :=
  startCritical fun primask => .lock .scheduler (.pend
    (.unlock .scheduler (endCritical primask (.ret false))))

def schedulerSection (next : Stmt) : Stmt :=
  startCritical fun primask => .lock .scheduler (.unlock .scheduler (endCritical primask next))

def addThread (stackSize priority : Nat) : Stmt :=
  startCritical fun primask => .lock .scheduler
    (if priorityLvlCnt ≤ priority then .abandon true
    else .call (.malloc sizeofTcb) fun null =>
      if null then .unlock .scheduler (endCritical primask (.ret true))
      else .call (.malloc stackSize) fun null =>
        if null then
          .call .free fun _ => .unlock .scheduler (endCritical primask (.ret true))
        else .unlock .scheduler (endCritical primask (.ret false)))

def schedBlock : Stmt := schedulerSection (.call .schedule fun _ => .ret false)

def schedUnblock : Stmt := schedulerSection (.ask .outranked fun higher => .ret higher)

def sleep (sleepTime : Nat) : Stmt :=
  if sleepTime = 0 then .ret false else schedulerSection (.call .schedule fun _ => .ret false)

def unsleep : Stmt :=
  .ask .noSleeper fun empty => if empty then .ret false else schedulerSection (.ret false)

def kill : Stmt :=
  startCritical fun primask => .lock .scheduler (.unlock .scheduler
    (.call .free fun _ => .call .free fun _ => .call .schedule fun _ =>
      endCritical primask (.ret false)))

def schedulerStats : Stmt := schedulerSection (.ret false)

/-- Without the handshake over the inter-core FIFO, which takes no lock. -/
def initScheduler : Stmt :=
  .lock .scheduler (.call (.malloc sizeofTcb) fun null =>
    if null then .abandon false
    else .call (.malloc 128) fun null =>
      if null then .abandon false else .unlock .scheduler .launch)

/-- The periodic task runs as user code with `BGSCHEDULER` held. -/
def scheduleBackground : Stmt :=
  startCritical fun primask => .lock .bgScheduler (.user
    (.unlock .bgScheduler (endCritical primask (.ret false))))

def sizeofBgt : Nat := 20

def addPeriodicTask : Stmt :=
  startCritical fun primask => .lock .bgScheduler (.call (.malloc sizeofBgt) fun null =>
    if null then .abandon true
    else .unlock .bgScheduler (endCritical primask (.ret false)))

def fifoPut (fifo : Nat) : Stmt :=
  .call (.cWait (.full fifo)) fun _ => .call (.bWait (.mutex fifo)) fun _ =>
    .call (.bSignal (.mutex fifo)) fun _ => .call (.cSignal (.empty fifo)) fun _ => .ret false

def rxFifo : Nat := 0

def uartRxInterrupt : Stmt :=
  .ask .rxEmpty fun empty =>
    if empty then .ret false
    else .call (.fifoPut rxFifo) fun _ => .call .uartRxInterrupt fun _ => .ret false

def body : Fn → Stmt
  | .malloc size => malloc size
  | .free => free
  | .heapStats => heapStats
  | .initSemaphore sem value => .effect (.store sem value) (.ret false)
  | .bWait sem => bWait sem
  | .bSignal sem => bSignal sem
  | .cWait sem => cWait sem
  | .cWaitLoop sem => cWaitLoop sem
  | .cSignal sem => cSignal sem
  | .initScheduler => initScheduler
  | .schedule => schedule
  | .addThread stackSize priority => addThread stackSize priority
  | .schedBlock _ => schedBlock
  | .schedUnblock _ => schedUnblock
  | .sleep sleepTime => sleep sleepTime
  | .unsleep => unsleep
  | .kill => kill
  | .schedulerStats => schedulerStats
  | .scheduleBackground => scheduleBackground
  | .addPeriodicTask => addPeriodicTask
  | .fifoPut fifo => fifoPut fifo
  | .uartRxInterrupt => uartRxInterrupt

def handler : Handler → Stmt
  | .systick => .call .schedule fun _ => .ret false
  | .timer0 => .call .unsleep fun _ => .ret false
  | .timer1 => .call .scheduleBackground fun _ => .ret false
  | .uart0 => .ask .txInterrupt fun tx =>
      if tx then .ret false
      else .ask .rxInterrupt fun rx =>
        if rx then .call .uartRxInterrupt fun _ => .ret false else .ret false

/-- `init_scheduler` is called once on each core, by `main` and `core1_entry`. -/
def callable : Fn → Bool
  | .cWaitLoop _ | .initScheduler => false
  | _ => true

abbrev Store := Sem → Int32

def code : Code Lock Fn Ask Effect Store Handler where
  body := body
  handler := handler
  callable := callable
  read
    | values, .value sem => some (values sem != 0)
    | _, _ => none
  write
    | values, .store sem value => Function.update values sem value
    | values, .increment sem => Function.update values sem (values sem + 1)
    | values, .decrement sem => Function.update values sem (values sem - 1)

abbrev Machine := State Core Lock Fn Ask Effect Nat Store

abbrev Step := Act Core Fn Nat Handler

def main : Stmt := .user (.call .initScheduler fun _ => .ret false)

def core1Entry : Stmt := .call .initScheduler fun _ => .ret false

/-- `reset_handler` disables interrupts on core 0 before `main`; nothing is known
about the mask of core 1. -/
structure PowerOn (s : Machine) : Prop where
  unlocked : ∀ l, s.owner l = none
  main : (s.core .cpu0).context = ⟨main, []⟩
  masked : (s.core .cpu0).mask = true
  running : (s.core .cpu0).booting = false
  core1 : (s.core .cpu1).context = ⟨core1Entry, []⟩
  booting : (s.core .cpu1).booting = true
  thread : ∀ c, (s.core c).interrupted = none
  threads : ∀ t, s.saved t = ⟨.user (.ret false), []⟩

/-- What each function needs: the locks it takes are not held by its core. `b_wait`
and `b_signal` take `SCHEDULER` only behind an answer that `permits` excludes
while it is held. -/
def pre : Fn → Bool → Set Lock → Bool → Prop
  | .initSemaphore _ _, _, _, _ => True
  | .malloc _, _, locks, _ | .free, _, locks, _ | .heapStats, _, locks, _
  | .bWait _, _, locks, _ | .bSignal _, _, locks, _ => .spinlock31 ∉ locks
  | .schedule, _, locks, _ | .schedBlock _, _, locks, _ | .schedUnblock _, _, locks, _
  | .sleep _, _, locks, _ | .unsleep, _, locks, _ | .schedulerStats, _, locks, _ =>
      .scheduler ∉ locks
  | .addThread _ _, _, locks, _ | .kill, _, locks, _ =>
      .scheduler ∉ locks ∧ .spinlock31 ∉ locks
  | .addPeriodicTask, _, locks, _ => .bgScheduler ∉ locks ∧ .spinlock31 ∉ locks
  | .cSignal _, _, locks, _ => .countingSema4 ∉ locks ∧ .scheduler ∉ locks
  | .cWait _, shielded, locks, _ =>
      .countingSema4 ∉ locks ∧ .scheduler ∉ locks ∧ (shielded = true ∨ locks = ∅)
  | .cWaitLoop _, shielded, locks, mask =>
      .countingSema4 ∈ locks ∧ .scheduler ∉ locks ∧ mask = true ∧
        (shielded = true ∨ locks \ {.countingSema4} = ∅)
  | .fifoPut _, shielded, locks, _ | .uartRxInterrupt, shielded, locks, _ =>
      .countingSema4 ∉ locks ∧ .scheduler ∉ locks ∧ .spinlock31 ∉ locks ∧
        (shielded = true ∨ locks = ∅)
  | .scheduleBackground, _, locks, _ => locks = ∅
  | .initScheduler, shielded, locks, mask => locks = ∅ ∧ (shielded = true ∨ mask = true)

/-- With `SCHEDULER` held every `b_wait` finds its semaphore free and every
`b_signal` finds no waiter. -/
def permits : Ask → Set Lock → Bool → Prop
  | .value _, locks, answer | .waiters _, locks, answer =>
      Lock.scheduler ∈ locks → answer = false
  | _, _, _ => True

def waitsCounting : Fn → Bool
  | .cWait _ | .fifoPut _ | .uartRxInterrupt => true
  | _ => false

/-- A periodic task neither adds nor runs periodic tasks, and takes a unit of a
counting semaphore only in a handler. -/
def allows (shielded : Bool) (locks : Set Lock) (f : Fn) : Prop :=
  Lock.bgScheduler ∈ locks →
    f ≠ .addPeriodicTask ∧ f ≠ .scheduleBackground ∧
      (waitsCounting f = true → shielded = true)

def contract : Contract Lock Fn Ask where
  pre := pre
  returns f := f ≠ .initScheduler
  permits := permits
  allows := allows

abbrev Keeps (f : Fn) (prog : Stmt) : Prop :=
  ∀ shielded locks mask, pre f shielded locks mask → Calm shielded mask locks →
    Safe callable contract shielded
      (fun locks' mask' _ => contract.returns f ∧ locks' = locks ∧ mask' = mask) prog locks mask

section Sections

variable {shielded mask : Bool} {locks : Set Lock} {post : Set Lock → Bool → Bool → Prop}
  {l : Lock}

theorem critical_safe {next : Bool → Stmt} (fresh : l ∉ locks)
    (inside : Safe callable contract shielded post (next mask) (insert l locks) true) :
    Safe callable contract shielded post
      (startCritical fun primask => .lock l (next primask)) locks mask :=
  ⟨.inr (.inl rfl), fresh, .inr (.inl rfl), inside⟩

theorem unlock_safe {next : Stmt} (fresh : l ∉ locks)
    (outside : Safe callable contract shielded post next locks mask) :
    Safe callable contract shielded post (.unlock l next) (insert l locks) mask := by
  refine ⟨Set.mem_insert l locks, ?_⟩
  rw [Set.insert_sdiff_self_of_notMem fresh]
  exact outside

theorem leave_safe {primask : Bool} {next : Stmt} (fresh : l ∉ locks)
    (calm : Calm shielded primask locks)
    (outside : Safe callable contract shielded post next locks primask) :
    Safe callable contract shielded post (.unlock l (endCritical primask next))
      (insert l locks) mask :=
  unlock_safe fresh ⟨calm, outside⟩

theorem call_safe {f : Fn} {next : Bool → Stmt} (ready : pre f shielded locks mask)
    (after : ∀ answer, Safe callable contract shielded post (next answer) locks mask) :
    Safe callable contract shielded post (.call f next) locks mask :=
  ⟨ready, fun _ => after⟩

theorem schedulerSection_safe {next : Stmt} (fresh : .scheduler ∉ locks)
    (calm : Calm shielded mask locks)
    (outside : Safe callable contract shielded post next locks mask) :
    Safe callable contract shielded post (schedulerSection next) locks mask :=
  critical_safe fresh (leave_safe fresh calm outside)

theorem atomicTestAndSet_safe {sem : Sem} {next : Bool → Stmt} (fresh : .spinlock31 ∉ locks)
    (calm : Calm shielded mask locks)
    (outside : ∀ taken, (.scheduler ∈ locks → taken = false) →
      Safe callable contract shielded post (next taken) locks mask) :
    Safe callable contract shielded post (atomicTestAndSet sem next) locks mask := by
  refine critical_safe fresh fun taken permitted => leave_safe fresh calm (outside taken ?_)
  intro scheduling
  exact permitted (.inr scheduling)

theorem atomicClear_safe {sem : Sem} {next : Stmt} (fresh : .spinlock31 ∉ locks)
    (calm : Calm shielded mask locks)
    (outside : Safe callable contract shielded post next locks mask) :
    Safe callable contract shielded post (atomicClear sem next) locks mask :=
  critical_safe fresh (leave_safe fresh calm outside)

theorem wake_safe {sem : Sem} {next : Stmt}
    (after : Safe callable contract shielded post next locks mask) :
    Safe callable contract shielded post (wake sem next) locks mask := by
  intro waiting permitted
  cases waiting with
  | false => exact after
  | true =>
      have idle : .scheduler ∉ locks := fun scheduling => by simpa using permitted scheduling
      refine call_safe idle fun higher => ?_
      cases higher with
      | false => exact after
      | true => exact call_safe idle fun _ => after

end Sections

theorem schedule_keeps : Keeps .schedule schedule := by
  intro shielded locks mask fresh calm
  exact critical_safe fresh (leave_safe (l := .scheduler) fresh calm ⟨nofun, rfl, rfl⟩)

theorem schedBlock_keeps (sem : Sem) : Keeps (.schedBlock sem) schedBlock := by
  intro shielded locks mask fresh calm
  exact schedulerSection_safe fresh calm (call_safe fresh fun _ => ⟨nofun, rfl, rfl⟩)

theorem schedUnblock_keeps (sem : Sem) : Keeps (.schedUnblock sem) schedUnblock := by
  intro shielded locks mask fresh calm
  exact schedulerSection_safe fresh calm fun _ _ => ⟨nofun, rfl, rfl⟩

theorem schedulerStats_keeps : Keeps .schedulerStats schedulerStats := by
  intro shielded locks mask fresh calm
  exact schedulerSection_safe fresh calm ⟨nofun, rfl, rfl⟩

theorem sleep_keeps (sleepTime : Nat) : Keeps (.sleep sleepTime) (sleep sleepTime) := by
  intro shielded locks mask fresh calm
  unfold sleep
  split
  · exact ⟨nofun, rfl, rfl⟩
  · exact schedulerSection_safe fresh calm (call_safe fresh fun _ => ⟨nofun, rfl, rfl⟩)

theorem unsleep_keeps : Keeps .unsleep unsleep := by
  intro shielded locks mask fresh calm empty _
  cases empty with
  | true => exact ⟨nofun, rfl, rfl⟩
  | false => exact schedulerSection_safe fresh calm ⟨nofun, rfl, rfl⟩

theorem bWait_keeps (sem : Sem) : Keeps (.bWait sem) (bWait sem) := by
  intro shielded locks mask fresh calm
  refine atomicTestAndSet_safe fresh calm fun taken idle => ?_
  cases taken with
  | false => exact ⟨nofun, rfl, rfl⟩
  | true =>
      -- contention: `sched_block` takes `SCHEDULER`, which is therefore not held
      have unscheduling : .scheduler ∉ locks := fun scheduling => by simpa using idle scheduling
      exact call_safe unscheduling fun _ => call_safe fresh fun _ => ⟨nofun, rfl, rfl⟩

theorem bSignal_keeps (sem : Sem) : Keeps (.bSignal sem) (bSignal sem) := by
  intro shielded locks mask fresh calm
  refine ⟨.inr (.inl rfl), atomicClear_safe fresh (.inr (.inl rfl)) (wake_safe ?_)⟩
  exact ⟨calm, nofun, rfl, rfl⟩

theorem malloc_keeps (size : Nat) : Keeps (.malloc size) (malloc size) := by
  intro shielded locks mask fresh _
  unfold malloc
  split
  · exact ⟨nofun, rfl, rfl⟩
  · exact call_safe fresh fun _ _ _ => call_safe fresh fun _ => ⟨nofun, rfl, rfl⟩

theorem free_keeps : Keeps .free free := by
  intro shielded locks mask fresh _ empty _
  cases empty with
  | true => exact ⟨nofun, rfl, rfl⟩
  | false => exact call_safe fresh fun _ _ _ => call_safe fresh fun _ => ⟨nofun, rfl, rfl⟩

theorem heapStats_keeps : Keeps .heapStats heapStats := by
  intro shielded locks mask fresh _
  exact call_safe fresh fun _ => call_safe fresh fun _ => ⟨nofun, rfl, rfl⟩

theorem cWaitLoop_keeps (sem : Sem) : Keeps (.cWaitLoop sem) (cWaitLoop sem) := by
  rintro shielded locks mask ⟨counting, unscheduling, rfl, interruptible⟩ calm nonzero _
  cases nonzero with
  | true => exact ⟨nofun, rfl, rfl⟩
  | false =>
      have again : insert .countingSema4 (locks \ {.countingSema4}) = locks :=
        Set.insert_sdiff_self_of_mem counting
      refine ⟨counting, interruptible.imp_right .inr, call_safe (fun kept => unscheduling kept.1)
        fun _ => ⟨.inr (.inl rfl), fun kept => kept.2 rfl, ?_⟩⟩
      rw [again]
      exact ⟨calm, call_safe ⟨counting, unscheduling, rfl, interruptible⟩ fun _ =>
        ⟨nofun, rfl, rfl⟩⟩

theorem cWait_keeps (sem : Sem) : Keeps (.cWait sem) (cWait sem) := by
  rintro shielded locks mask ⟨fresh, unscheduling, interruptible⟩ calm
  refine critical_safe fresh (call_safe ⟨Set.mem_insert _ _, ?_, rfl, ?_⟩
    fun _ => leave_safe (l := .countingSema4) fresh calm ⟨nofun, rfl, rfl⟩)
  · simpa using unscheduling
  · rw [Set.insert_sdiff_self_of_notMem fresh]
    exact interruptible

theorem cSignal_keeps (sem : Sem) : Keeps (.cSignal sem) (cSignal sem) := by
  rintro shielded locks mask ⟨fresh, unscheduling⟩ calm
  exact critical_safe fresh (wake_safe (leave_safe (l := .countingSema4) fresh calm
    ⟨nofun, rfl, rfl⟩))

theorem addThread_keeps (stackSize priority : Nat) :
    Keeps (.addThread stackSize priority) (addThread stackSize priority) := by
  rintro shielded locks mask ⟨fresh, unlocked⟩ calm
  have allocating : .spinlock31 ∉ insert Lock.scheduler locks := by simpa using unlocked
  refine critical_safe fresh ?_
  split
  · trivial
  · refine call_safe allocating fun null => ?_
    cases null with
    | true => exact leave_safe fresh calm ⟨nofun, rfl, rfl⟩
    | false =>
        refine call_safe allocating fun null => ?_
        cases null with
        | true => exact call_safe allocating fun _ => leave_safe fresh calm ⟨nofun, rfl, rfl⟩
        | false => exact leave_safe fresh calm ⟨nofun, rfl, rfl⟩

theorem kill_keeps : Keeps .kill kill := by
  rintro shielded locks mask ⟨fresh, unlocked⟩ calm
  refine critical_safe fresh (unlock_safe fresh ?_)
  exact call_safe unlocked fun _ => call_safe unlocked fun _ => call_safe fresh fun _ =>
    ⟨calm, nofun, rfl, rfl⟩

theorem addPeriodicTask_keeps : Keeps .addPeriodicTask addPeriodicTask := by
  rintro shielded locks mask ⟨fresh, unlocked⟩ calm
  have allocating : .spinlock31 ∉ insert Lock.bgScheduler locks := by simpa using unlocked
  refine critical_safe fresh (call_safe allocating fun null => ?_)
  cases null with
  | true => trivial
  | false => exact leave_safe fresh calm ⟨nofun, rfl, rfl⟩

theorem user_ready {shielded mask : Bool} {locks : Set Lock} (background : locks ⊆ {.bgScheduler})
    {f : Fn} (api : callable f = true) (allowed : allows shielded locks f) :
    pre f shielded locks mask ∧ contract.returns f := by
  have scheduling : Lock.scheduler ∉ locks := fun owned => nomatch background owned
  have counting : Lock.countingSema4 ∉ locks := fun owned => nomatch background owned
  have testing : Lock.spinlock31 ∉ locks := fun owned => nomatch background owned
  have unlocked : Lock.bgScheduler ∉ locks → locks = ∅ := fun free =>
    Set.eq_empty_of_forall_notMem fun l owned => free (background owned ▸ owned)
  have interruptible : waitsCounting f = true → shielded = true ∨ locks = ∅ := by
    intro waits
    by_cases running : Lock.bgScheduler ∈ locks
    · exact .inl ((allowed running).2.2 waits)
    · exact .inr (unlocked running)
  constructor
  · cases f with
    | initSemaphore sem value => trivial
    | malloc | free | heapStats | bWait | bSignal => exact testing
    | schedule | schedBlock | schedUnblock | sleep | unsleep | schedulerStats => exact scheduling
    | addThread | kill => exact ⟨scheduling, testing⟩
    | cSignal => exact ⟨counting, scheduling⟩
    | cWait => exact ⟨counting, scheduling, interruptible rfl⟩
    | fifoPut | uartRxInterrupt =>
        exact ⟨counting, scheduling, testing, interruptible rfl⟩
    | addPeriodicTask => exact ⟨fun running => (allowed running).1 rfl, testing⟩
    | scheduleBackground => exact unlocked fun running => (allowed running).2.1 rfl
    | cWaitLoop | initScheduler => cases api
  · rintro rfl
    cases api

theorem scheduleBackground_keeps : Keeps .scheduleBackground scheduleBackground := by
  rintro shielded locks mask rfl calm
  refine critical_safe (Set.notMem_empty _) ⟨fun f callable allowed => ?_,
    leave_safe (Set.notMem_empty _) calm ⟨nofun, rfl, rfl⟩⟩
  exact user_ready (by simp) callable allowed

theorem fifoPut_keeps (fifo : Nat) : Keeps (.fifoPut fifo) (fifoPut fifo) := by
  rintro shielded locks mask ⟨counting, unscheduling, unlocked, interruptible⟩ _
  refine call_safe ⟨counting, unscheduling, interruptible⟩ fun _ => ?_
  refine call_safe unlocked fun _ => call_safe unlocked fun _ => ?_
  exact call_safe ⟨counting, unscheduling⟩ fun _ => ⟨nofun, rfl, rfl⟩

theorem uartRxInterrupt_keeps : Keeps .uartRxInterrupt uartRxInterrupt := by
  intro shielded locks mask ready _ empty _
  cases empty with
  | true => exact ⟨nofun, rfl, rfl⟩
  | false => exact call_safe ready fun _ => call_safe ready fun _ => ⟨nofun, rfl, rfl⟩

theorem initScheduler_keeps : Keeps .initScheduler initScheduler := by
  rintro shielded locks mask ⟨rfl, booting⟩ _
  have allocating : .spinlock31 ∉ insert Lock.scheduler (∅ : Set Lock) := by simp
  refine ⟨Set.notMem_empty _, booting.imp_right .inl, call_safe allocating fun null => ?_⟩
  cases null with
  | true => trivial
  | false =>
      refine call_safe allocating fun null => ?_
      cases null with
      | true => trivial
      | false => exact ⟨Set.mem_insert _ _, by simp [Safe]⟩

theorem handler_keeps (interrupt : Handler) :
    Safe callable contract true (fun locks mask _ => locks = ∅ ∧ mask = false)
      (handler interrupt) ∅ false := by
  cases interrupt with
  | systick => exact call_safe (Set.notMem_empty _) fun _ => ⟨rfl, rfl⟩
  | timer0 => exact call_safe (Set.notMem_empty _) fun _ => ⟨rfl, rfl⟩
  | timer1 => exact call_safe rfl fun _ => ⟨rfl, rfl⟩
  | uart0 =>
      intro tx _
      cases tx with
      | true => exact ⟨rfl, rfl⟩
      | false =>
          intro rx _
          cases rx with
          | false => exact ⟨rfl, rfl⟩
          | true => exact call_safe (by simp [pre]) fun _ => ⟨rfl, rfl⟩

theorem verified : Verified code contract where
  body f := by
    cases f with
    | malloc size => exact malloc_keeps size
    | free => exact free_keeps
    | heapStats => exact heapStats_keeps
    | initSemaphore sem value => exact fun _ _ _ _ _ => ⟨nofun, rfl, rfl⟩
    | bWait sem => exact bWait_keeps sem
    | bSignal sem => exact bSignal_keeps sem
    | cWait sem => exact cWait_keeps sem
    | cWaitLoop sem => exact cWaitLoop_keeps sem
    | cSignal sem => exact cSignal_keeps sem
    | initScheduler => exact initScheduler_keeps
    | schedule => exact schedule_keeps
    | addThread stackSize priority => exact addThread_keeps stackSize priority
    | schedBlock sem => exact schedBlock_keeps sem
    | schedUnblock sem => exact schedUnblock_keeps sem
    | sleep sleepTime => exact sleep_keeps sleepTime
    | unsleep => exact unsleep_keeps
    | kill => exact kill_keeps
    | schedulerStats => exact schedulerStats_keeps
    | scheduleBackground => exact scheduleBackground_keeps
    | addPeriodicTask => exact addPeriodicTask_keeps
    | fifoPut fifo => exact fifoPut_keeps fifo
    | uartRxInterrupt => exact uartRxInterrupt_keeps
  handler := handler_keeps

theorem user_ok {mask : Bool} {next : Stmt}
    (after : ContextOk callable contract false ∅ mask ⟨next, []⟩) :
    ContextOk callable contract false ∅ mask ⟨.user next, []⟩ :=
  ⟨fun _ api allowed => user_ready (Set.empty_subset _) api allowed, after⟩

theorem powerOn_inv {s : Machine} (start : PowerOn s) : Inv code contract s := by
  have unlocked : ∀ c, held s.owner c = ∅ := by
    intro c
    refine Set.eq_empty_of_forall_notMem fun l owned => ?_
    cases (start.unlocked l).symm.trans owned
  constructor
  · intro c
    refine ⟨.inr (.inr (unlocked c)), ?_, by simp [start.thread c]⟩
    rw [unlocked c]
    cases c with
    | cpu0 =>
        have unshielded : (s.core .cpu0).shielded = false := by
          simp [CoreState.shielded, start.thread, start.running]
        rw [start.main, start.masked, unshielded]
        exact user_ok ⟨⟨rfl, .inr rfl⟩, fun returns => (returns rfl).elim⟩
    | cpu1 =>
        have shielded : (s.core .cpu1).shielded = true := by
          simp [CoreState.shielded, start.booting]
        rw [start.core1, shielded]
        exact ⟨⟨rfl, .inl rfl⟩, fun returns => (returns rfl).elim⟩
  · intro t
    rw [start.threads t]
    refine user_ok fun asleep => ?_
    cases asleep

instance (q : Ask) (owner : Lock → Option Core) (c : Core) (answer : Bool) :
    Decidable (permits q (held owner c) answer) :=
  match q with
  | .value _ | .waiters _ =>
      inferInstanceAs (Decidable (.scheduler ∈ held owner c → answer = false))
  | .outranked | .found | .heapEmpty | .noSleeper | .txInterrupt | .rxInterrupt | .rxEmpty =>
      inferInstanceAs (Decidable True)

/-- A run keeps to `permits` and `allows`, takes no early return with a lock held,
and no interrupt on core 1 before its first thread. -/
def Guard (s : Machine) (act : Step) : Prop := LockDiscipline.Guard code contract s act

instance (s : Machine) (act : Step) : Decidable (Guard s act) :=
  match act with
  | .run c answer _ =>
      match at_now : (s.core c).context.now with
      | .ask q _ => decidable_of_iff
          (permits q (held s.owner c) ((code.read s.store q).getD answer))
          (by simp [Guard, LockDiscipline.Guard, at_now, contract])
      | .abandon _ => isFalse (by simp [Guard, LockDiscipline.Guard, at_now])
      | .ret _ | .lock _ _ | .unlock _ _ | .readMask _ | .setMask _ _ | .effect _ _ | .pend _
      | .call _ _ | .user _ | .launch =>
          isTrue (by simp [Guard, LockDiscipline.Guard, at_now])
  | .enter c f => inferInstanceAs (Decidable (.bgScheduler ∈ held s.owner c →
      f ≠ .addPeriodicTask ∧ f ≠ .scheduleBackground ∧
        (waitsCounting f = true → (s.core c).shielded = true)))
  | .leave _ => inferInstanceAs (Decidable True)
  | .interrupt c _ | .switch c => inferInstanceAs (Decidable ((s.core c).booting = false))

theorem no_self_deadlock_along_runs {s : Machine}
    (reached : Reaches (step code) Guard PowerOn s) : NoSelfDeadlock s :=
  (run_invariant verified (fun _ _ allowed => allowed) (fun _ start => powerOn_inv start)
    reached).no_self_deadlock

def reset : Machine where
  owner _ := none
  store _ := 0
  core
    | .cpu0 => ⟨⟨main, []⟩, true, false, none, 0, none⟩
    | .cpu1 => ⟨⟨core1Entry, []⟩, false, true, none, 0, none⟩
  saved _ := ⟨.user (.ret false), []⟩

theorem reset_powerOn : PowerOn reset where
  unlocked _ := rfl
  main := rfl
  masked := rfl
  running := rfl
  core1 := rfl
  booting := rfl
  thread c := by cases c <;> rfl
  threads _ := rfl

def firstThread : Core → Nat
  | .cpu0 => 1
  | .cpu1 => 2

def runs (c : Core) (count : Nat) : List Step :=
  List.replicate count (.run c false (firstThread c))

def allocations (c : Core) (before after : Nat) : List Step :=
  runs c before ++ [.run c true (firstThread c)] ++ runs c 23 ++
    [.run c true (firstThread c)] ++ runs c after

def startUp : List Step :=
  [.enter .cpu0 (.addThread 1024 1)] ++ allocations .cpu0 13 16 ++
    [.enter .cpu0 (.addThread 1024 1)] ++ allocations .cpu0 13 16 ++
    [.leave .cpu0] ++ allocations .cpu0 12 15 ++ allocations .cpu1 12 15

def quietAddThread : List Step :=
  startUp ++ [.interrupt .cpu1 .systick] ++ runs .cpu1 9 ++ [.switch .cpu1] ++
    [.enter .cpu0 (.addThread 512 2)] ++ allocations .cpu0 13 16

theorem no_self_deadlock_along_runs_quiet :
    ∃ s ∈ exec (step code) reset quietAddThread, NoSelfDeadlock s := by
  obtain ⟨s, executed⟩ : ∃ s, exec (step code) reset quietAddThread = some s :=
    Option.isSome_iff_exists.mp (by decide +kernel)
  have allowed : Allowed (step code) Guard reset quietAddThread := by decide +kernel
  exact ⟨s, executed, no_self_deadlock_along_runs
    (exec_reaches quietAddThread (.start reset_powerOn) allowed executed)⟩

def contendedAddThread : List Step :=
  startUp ++ [.enter .cpu1 (.malloc 128)] ++ runs .cpu1 9 ++
    [.enter .cpu0 (.addThread 512 2)] ++ runs .cpu0 15

theorem add_thread_locks_scheduler_twice :
    ∃ s, Reaches (step code) Transition.free PowerOn s ∧ ¬ NoSelfDeadlock s := by
  obtain ⟨s, executed, wanted, owned⟩ : ∃ s ∈ exec (step code) reset contendedAddThread,
      (s.core .cpu0).context.now.wants = some .scheduler ∧
        s.owner .scheduler = some .cpu0 := by
    decide +kernel
  exact ⟨s, exec_reaches contendedAddThread (.start reset_powerOn)
    (allowed_free _ _ _) executed, fun none => none _ _ wanted owned⟩

end MulticoreRtos.SpinlockNesting
