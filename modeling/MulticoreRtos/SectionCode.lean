import MulticoreRtos.Atomicity
import MulticoreRtos.ContextSwitch

/-!
The sections under `SCHEDULER` as the cores execute them, one load or store at a
time. Run without a break each computes what the function of its name does at once.
-/

namespace MulticoreRtos.SectionCode

open Scheduler Atomicity
open Atomicity.Code (read assign)
open Heap (null)

variable {Sem : Type}

/-- What core `cpu` reaches: the memory behind the lock and its own entries of the
arrays by core. -/
structure View (Sem : Type) extends Shared Sem where
  runPt : Nat
  nextRunPt : Nat
  idleThread : Nat
  idleTime : Nat
  idleTimeStart : Nat
  alarm0 : Nat
  pendSv : Bool

abbrev Part (Sem : Type) := Code (View Sem)

section Fields

def setNext (thread next : Nat) : Part Sem Unit :=
  assign fun v => { v with nextTcb := Function.update v.nextTcb thread next }

def setPrev (thread prev : Nat) : Part Sem Unit :=
  assign fun v => { v with prevTcb := Function.update v.prevTcb thread prev }

def setState (thread : Nat) (state : ThreadState) : Part Sem Unit :=
  assign fun v => { v with state := Function.update v.state thread state }

def setRoot (priority thread : Nat) : Part Sem Unit :=
  assign fun v => { v with threadSchedule := Function.update v.threadSchedule priority thread }

def setActive (priority count : Nat) : Part Sem Unit :=
  assign fun v =>
    { v with activePriorityCount := Function.update v.activePriorityCount priority count }

def setRunning (priority count : Nat) : Part Sem Unit :=
  assign fun v =>
    { v with runningPriorityCount := Function.update v.runningPriorityCount priority count }

end Fields

/-- `++` and `--` on a counter in memory are a load and a store. -/
def addActive (priority : Nat) (change : Nat → Nat) : Part Sem Unit := do
  let count ← read (·.activePriorityCount priority)
  setActive priority (change count)

def addRunning (priority : Nat) (change : Nat → Nat) : Part Sem Unit := do
  let count ← read (·.runningPriorityCount priority)
  setRunning priority (change count)

def enqueueThread (thread : Nat) : Part Sem Unit := do
  let priority ← read (·.priority thread)
  let root ← read (·.threadSchedule priority)
  if root = null then
    setRoot priority thread
    setNext thread thread
    setPrev thread thread
  else
    let root ← read (·.threadSchedule priority)
    setNext thread root
    let root ← read (·.threadSchedule priority)
    let last ← read (·.prevTcb root)
    setPrev thread last
    let last ← read (·.prevTcb thread)
    setNext last thread
    let root ← read (·.threadSchedule priority)
    setPrev root thread
    setRoot priority thread
  setState thread .active
  addActive priority increment

def dequeueThread (thread : Nat) : Part Sem Unit := do
  let priority ← read (·.priority thread)
  let state ← read (·.state thread)
  if state = .running then addRunning priority decrement
  let active ← read (·.activePriorityCount priority)
  let running ← read (·.runningPriorityCount priority)
  if active = 0 ∧ running = 0 then setRoot priority null
  else
    let prev ← read (·.prevTcb thread)
    let next ← read (·.nextTcb thread)
    setNext prev next
    let next ← read (·.nextTcb thread)
    let prev ← read (·.prevTcb thread)
    setPrev next prev
    let next ← read (·.nextTcb thread)
    setRoot priority next
  setNext thread null

def exitIdle (now : Nat) : Part Sem Unit := do
  let total ← read (·.idleTime)
  let start ← read (·.idleTimeStart)
  assign fun v => { v with idleTime := (total + (now + 2 ^ 64 - start)) % 2 ^ 64 }

def enterIdle (now : Nat) : Part Sem Unit :=
  assign fun v => { v with idleTimeStart := now }

/-- `while (ActivePriorityCount[pri] == 0) pri++`, with `levels` entries of the array left. -/
def scan : Nat → Nat → Part Sem Nat
  | 0, _ => .stuck
  | levels + 1, pri => do
      let count ← read (·.activePriorityCount pri)
      if count = 0 then scan levels (pri + 1) else pure pri

def putBack : Part Sem Unit := do
  let thread ← read (·.runPt)
  let state ← read (·.state thread)
  if state = .running then
    let thread ← read (·.runPt)
    setState thread .active
    let thread ← read (·.runPt)
    let priority ← read (·.priority thread)
    addActive priority increment
    let thread ← read (·.runPt)
    let priority ← read (·.priority thread)
    addRunning priority decrement

def takeThread (pri : Nat) : Part Sem Unit := do
  let root ← read (·.threadSchedule pri)
  let state ← read (·.state root)
  if state = .running then
    let root ← read (·.threadSchedule pri)
    let next ← read (·.nextTcb root)
    assign fun v => { v with nextRunPt := next }
  else
    let root ← read (·.threadSchedule pri)
    assign fun v => { v with nextRunPt := root }
    let root ← read (·.threadSchedule pri)
    let next ← read (·.nextTcb root)
    setRoot pri next
  let thread ← read (·.nextRunPt)
  setState thread .running
  addActive pri decrement
  addRunning pri increment

def settle (now : Nat) : Part Sem Unit := do
  let thread ← read (·.runPt)
  let state ← read (·.state thread)
  if state = .idle then exitIdle now
  putBack

def selectNext (now : Nat) : Part Sem Unit := do
  let pri ← scan (idlePriority + 1) 0
  if pri = idlePriority then
    let idle ← read (·.idleThread)
    assign fun v => { v with nextRunPt := idle }
    enterIdle now
  else takeThread pri
  assign fun v => { v with pendSv := true }

def schedule (times : Readings) : Part Sem Unit := do
  settle times.exitIdle
  selectNext times.enterIdle

def walk (key : View Sem → Nat → Nat) (thread : Nat) : Nat → Nat → Part Sem Unit
  | 0, _ => .stuck
  | fuel + 1, node => do
      let next ← read (·.nextTcb node)
      if next = null then setNext node thread
      else
        let own ← read (key · thread)
        let next ← read (·.nextTcb node)
        let other ← read (key · next)
        if own < other then
          let next ← read (·.nextTcb node)
          setNext thread next
          setNext node thread
        else
          let next ← read (·.nextTcb node)
          walk key thread fuel next

def unsleep (first second : Nat) : Part Sem Unit := do
  let resumed ← read (·.sleepScheduleRoot)
  let root ← read (·.sleepScheduleRoot)
  let next ← read (·.nextTcb root)
  assign fun v => { v with sleepScheduleRoot := next }
  let root ← read (·.sleepScheduleRoot)
  if root ≠ null then
    let root ← read (·.sleepScheduleRoot)
    let tick ← read (·.resumeTick root)
    if tick < (first % 2 ^ 64 + 10) % 2 ^ 64 then
      assign fun v => { v with alarm0 := (second % 2 ^ 64 + 10) % 2 ^ 64 % 2 ^ 32 }
    else
      let root ← read (·.sleepScheduleRoot)
      let tick ← read (·.resumeTick root)
      assign fun v => { v with alarm0 := tick }
  enqueueThread resumed

def armTimer (thread : Nat) : Part Sem Unit := do
  let tick ← read (·.resumeTick thread)
  assign fun v => { v with alarm0 := tick }

def setSleeper (thread : Nat) : Part Sem Unit :=
  assign fun v => { v with sleepScheduleRoot := thread }

def sleep (now sleepTime : Nat) : Part Sem Unit := do
  let thread ← read (·.runPt)
  assign fun v =>
    { v with resumeTick := Function.update v.resumeTick thread (tickAfter now sleepTime) }
  dequeueThread thread
  setState thread .sleeping
  let root ← read (·.sleepScheduleRoot)
  if root = null then
    setSleeper thread
    armTimer thread
  else
    let own ← read (·.resumeTick thread)
    let root ← read (·.sleepScheduleRoot)
    let other ← read (·.resumeTick root)
    if own < other then
      let root ← read (·.sleepScheduleRoot)
      setNext thread root
      setSleeper thread
      armTimer thread
    else
      let root ← read (·.sleepScheduleRoot)
      walk (·.resumeTick) thread walkFuel root

section Semaphores
variable [DecidableEq Sem]

def setWaiter (sem : Sem) (thread : Nat) : Part Sem Unit :=
  assign fun v => { v with bthreadsRoot := Function.update v.bthreadsRoot sem thread }

def schedBlock (sem : Sem) : Part Sem Unit := do
  let thread ← read (·.runPt)
  dequeueThread thread
  setState thread .blocked
  let root ← read (·.bthreadsRoot sem)
  if root = null then setWaiter sem thread
  else
    let node ← read (·.bthreadsRoot sem)
    let own ← read (·.priority thread)
    let other ← read (·.priority node)
    if own < other then
      setNext thread node
      setWaiter sem thread
    else walk (·.priority) thread walkFuel node

def schedUnblock (sem : Sem) : Part Sem Unit := do
  let thread ← read (·.bthreadsRoot sem)
  let root ← read (·.bthreadsRoot sem)
  let next ← read (·.nextTcb root)
  setWaiter sem next
  enqueueThread thread

end Semaphores

/-! Without a break -/

/-- What core `c` reaches of the kernel. -/
def look (c : Core) (k : Kernel Sem) : View Sem where
  toShared := k.toShared
  runPt := k.runPt c
  nextRunPt := k.nextRunPt c
  idleThread := k.idleThread c
  idleTime := k.idleTime c
  idleTimeStart := k.idleTimeStart c
  alarm0 := k.alarm0
  pendSv := k.pendSv c

def write (c : Core) (k : Kernel Sem) (v : View Sem) : Kernel Sem :=
  { k with
    toShared := v.toShared
    runPt := Function.update k.runPt c v.runPt
    nextRunPt := Function.update k.nextRunPt c v.nextRunPt
    idleThread := Function.update k.idleThread c v.idleThread
    idleTime := Function.update k.idleTime c v.idleTime
    idleTimeStart := Function.update k.idleTimeStart c v.idleTimeStart
    alarm0 := v.alarm0
    pendSv := Function.update k.pendSv c v.pendSv }

theorem look_write (c : Core) (k : Kernel Sem) (v : View Sem) : look c (write c k v) = v := by
  simp [look, write]

theorem write_look (c : Core) (k : Kernel Sem) : write c k (look c k) = k := by
  simp [look, write]

theorem write_write (c : Core) (k : Kernel Sem) (first second : View Sem) :
    write c (write c k first) second = write c k second := by
  simp [write]

section Runs
attribute [local simp] setNext setPrev setState setRoot setActive setRunning addActive addRunning

theorem enqueueThread_run (thread : Nat) (v : View Sem) :
    (enqueueThread thread).run v =
      some ((), { v with toShared := Scheduler.enqueueThread v.toShared thread }) := by
  by_cases empty : v.threadSchedule (v.priority thread) = null
  · simp [enqueueThread, Scheduler.enqueueThread, empty]
  · simp [enqueueThread, Scheduler.enqueueThread, empty]

/-- The thread's own link is read again after the link to it was set. -/
theorem update_link (next : Nat → Nat) (prev thread : Nat) :
    Function.update next prev (next thread) thread = next thread := by
  by_cases alone : thread = prev
  · rw [alone, Function.update_self]
  · exact Function.update_of_ne alone _ _

theorem dequeueThread_run (thread : Nat) (v : View Sem) :
    (dequeueThread thread).run v =
      some ((), { v with toShared := Scheduler.dequeueThread v.toShared thread }) := by
  by_cases runs : v.state thread = .running
  · by_cases empty : v.activePriorityCount (v.priority thread) = 0 ∧
        decrement (v.runningPriorityCount (v.priority thread)) = 0
    · simp [dequeueThread, Scheduler.dequeueThread, unlinkThread, dropRunning, runs, empty]
    · simp [dequeueThread, Scheduler.dequeueThread, unlinkThread, dropRunning, runs, empty, update_link]
  · by_cases empty : v.activePriorityCount (v.priority thread) = 0 ∧
        v.runningPriorityCount (v.priority thread) = 0
    · simp [dequeueThread, Scheduler.dequeueThread, unlinkThread, dropRunning, runs, empty]
    · simp [dequeueThread, Scheduler.dequeueThread, unlinkThread, dropRunning, runs, empty, update_link]

theorem scan_run (levels pri : Nat) (v : View Sem) :
    (scan levels pri).run v =
      ((List.range' pri levels).find? fun p => v.activePriorityCount p ≠ 0).map (·, v) := by
  induction levels generalizing pri with
  | zero => rfl
  | succ levels ih =>
      by_cases empty : v.activePriorityCount pri = 0
      · simp [scan, List.range'_succ, empty, ih]
      · simp [scan, List.range'_succ, empty]

theorem putBack_run (v : View Sem) :
    (putBack).run v = some ((), { v with toShared := Scheduler.putBack v.toShared v.runPt }) := by
  by_cases runs : v.state v.runPt = .running
  · simp [putBack, Scheduler.putBack, runs]
  · simp [putBack, Scheduler.putBack, runs]

theorem exitIdle_run (now : Nat) (c : Core) (k : Kernel Sem) :
    (exitIdle now).run (look c k) = some ((), look c (Scheduler.exitIdle k c now)) := by
  simp only [exitIdle, Scheduler.exitIdle, look, Code.run_bind, Code.run_read, Code.run_assign,
    Option.bind_some, Function.update_self]

theorem settle_run (now : Nat) (c : Core) (k : Kernel Sem) :
    (settle now).run (look c k) = some ((), look c (Scheduler.settle k c now)) := by
  by_cases resting : k.state (k.runPt c) = .idle
  · have idle : (look c k).state (look c k).runPt = .idle := resting
    simp only [settle, Scheduler.settle, Code.run_bind, Code.run_read, Option.bind_some, if_pos idle,
      if_pos resting, exitIdle_run, putBack_run]
    rfl
  · have busy : (look c k).state (look c k).runPt ≠ .idle := resting
    simp only [settle, Scheduler.settle, Code.run_bind, Code.run_read, Option.bind_some, if_neg busy,
      if_neg resting, putBack_run]
    rfl

theorem takeThread_run (pri : Nat) (v : View Sem) :
    (takeThread pri).run v = some ((), { v with
      toShared := (Scheduler.takeThread v.toShared pri).1
      nextRunPt := (Scheduler.takeThread v.toShared pri).2 }) := by
  by_cases runs : v.state (v.threadSchedule pri) = .running
  · simp [takeThread, Scheduler.takeThread, markRunning, runs]
  · simp [takeThread, Scheduler.takeThread, takeRoot, markRunning, runs]

theorem selectNext_run (now : Nat) (c : Core) (k : Kernel Sem) :
    (selectNext now).run (look c k) =
      (Scheduler.selectNext k c now).map fun k' => ((), look c k') := by
  cases found : firstActive k.activePriorityCount with
  | none =>
      have nothing : (scan (idlePriority + 1) 0).run (look c k) = none := by
        rw [scan_run, ← List.range_eq_range']
        exact Option.map_eq_none_iff.mpr found
      simp [selectNext, Scheduler.selectNext, nothing, found]
  | some pri =>
      have level : (scan (idlePriority + 1) 0).run (look c k) = some (pri, look c k) := by
        rw [scan_run, ← List.range_eq_range']
        exact Option.map_eq_some_iff.mpr ⟨pri, found, rfl⟩
      rw [selectNext, Code.run_bind, level, Option.bind_some]
      by_cases idles : pri = idlePriority
      · simp [Scheduler.selectNext, enterIdle, Scheduler.enterIdle, found, idles, look]
      · simp [Scheduler.selectNext, found, idles, takeThread_run, look]

theorem schedule_run (times : Readings) (c : Core) (k : Kernel Sem) :
    (schedule times).run (look c k) =
      (Scheduler.schedule k c times).map fun k' => ((), look c k') := by
  rw [schedule, Code.run_bind, settle_run, Option.bind_some]
  exact selectNext_run times.enterIdle c (Scheduler.settle k c times.exitIdle)

theorem walk_run {key : View Sem → Nat → Nat} (thread fuel node : Nat) (v : View Sem) :
    (walk key thread fuel node).run v =
      (LinkedList.walkInsert null (key v) thread fuel v.nextTcb node).map fun next =>
        ((), { v with nextTcb := next }) := by
  induction fuel generalizing node with
  | zero => rfl
  | succ fuel ih =>
      by_cases last : v.nextTcb node = null
      · simp [walk, LinkedList.walkInsert, last]
      · by_cases before : key v thread < key v (v.nextTcb node)
        · simp [walk, LinkedList.walkInsert, last, before]
        · simp [walk, LinkedList.walkInsert, last, before, ih]

theorem unsleep_run (first second : Nat) (c : Core) (k : Kernel Sem)
    (sleeps : k.sleepScheduleRoot ≠ null) :
    (unsleep first second).run (look c k) =
      some ((), look c (Scheduler.unsleep k first second)) := by
  simp only [unsleep, Scheduler.unsleep, rearm, if_neg sleeps]
  generalize (first % 2 ^ 64 + 10) % 2 ^ 64 = limit
  generalize (second % 2 ^ 64 + 10) % 2 ^ 64 % 2 ^ 32 = late
  by_cases alone : k.nextTcb k.sleepScheduleRoot = null
  · simp [enqueueThread_run, look, alone]
  · by_cases soon : k.resumeTick (k.nextTcb k.sleepScheduleRoot) < limit
    · simp [enqueueThread_run, look, alone, soon]
    · simp [enqueueThread_run, look, alone, soon]

theorem sleep_run (now sleepTime : Nat) (c : Core) (k : Kernel Sem)
    (apart : k.sleepScheduleRoot ≠ k.runPt c) :
    (sleep now sleepTime).run (look c k) =
      (Scheduler.sleep k c now sleepTime).map fun k' => ((), look c k') := by
  simp only [sleep, Scheduler.sleep, insertThread]
  have untouched := dequeueThread_untouched { k.toShared with
    resumeTick := Function.update k.resumeTick (k.runPt c) (tickAfter now sleepTime) } (k.runPt c)
  have sleepers := untouched.sleepers
  have ticks := congrFun untouched.resumeTick (k.runPt c)
  simp only [Function.update_self] at sleepers ticks
  simp only [Code.run_bind, Code.run_read, Code.run_assign, Option.bind_some, look, dequeueThread_run]
  generalize Scheduler.dequeueThread _ (k.runPt c) = d at sleepers ticks ⊢
  rw [← sleepers] at apart
  simp only [← ticks]
  by_cases empty : d.sleepScheduleRoot = null
  · simp [armTimer, setSleeper, empty]
  · by_cases before : d.resumeTick (k.runPt c) < d.resumeTick d.sleepScheduleRoot
    · simp [armTimer, setSleeper, empty, before]
    · simp [walk_run, empty, before, apart, Option.map_map, Function.comp_def]

/-! Nothing else is written -/

def Within (c : Core) (k k' : Kernel Sem) : Prop := write c k (look c k') = k'

theorem Within.then {c : Core} {k₁ k₂ k₃ : Kernel Sem} (first : Within c k₁ k₂)
    (second : Within c k₂ k₃) : Within c k₁ k₃ := by
  unfold Within at first second ⊢
  rw [← first, write_write] at second
  exact second

theorem within_shared (c : Core) (k : Kernel Sem) (shared : Shared Sem) (alarm : Nat) :
    Within c k { k with toShared := shared, alarm0 := alarm } := by
  simp [Within, write, look]

theorem settle_within (k : Kernel Sem) (c : Core) (now : Nat) :
    Within c k (Scheduler.settle k c now) := by
  by_cases resting : k.state (k.runPt c) = .idle
  · simp only [Within, Scheduler.settle, if_pos resting, Scheduler.exitIdle, write, look,
      Function.update_self, Function.update_eq_self]
  · simp only [Within, Scheduler.settle, if_neg resting, write, look, Function.update_eq_self]

theorem selectNext_within {k k' : Kernel Sem} {c : Core} {now : Nat}
    (selected : Scheduler.selectNext k c now = some k') : Within c k k' := by
  obtain ⟨pri, _, rfl⟩ := Option.map_eq_some_iff.mp selected
  by_cases idles : pri = idlePriority
  · simp [Within, write, look, Scheduler.enterIdle, idles]
  · simp [Within, write, look, idles]

theorem schedule_within {k k' : Kernel Sem} {c : Core} {times : Readings}
    (scheduled : Scheduler.schedule k c times = some k') : Within c k k' :=
  (settle_within k c times.exitIdle).then (selectNext_within scheduled)

theorem unsleep_within (k : Kernel Sem) (c : Core) (first second : Nat) :
    Within c k (Scheduler.unsleep k first second) := by
  by_cases nobody : k.sleepScheduleRoot = null
  · simp only [Scheduler.unsleep, if_pos nobody]
    exact write_look c k
  · simp only [Scheduler.unsleep, if_neg nobody]
    exact within_shared c k _ _

theorem sleep_within {k k' : Kernel Sem} {c : Core} {now sleepTime : Nat}
    (slept : Scheduler.sleep k c now sleepTime = some k') : Within c k k' := by
  obtain ⟨_, _, rfl⟩ := Option.map_eq_some_iff.mp slept
  exact within_shared c k _ _

/-! No section changes which thread the core runs -/

theorem enqueueThread_keeps (thread : Nat) : (enqueueThread thread : Part Sem Unit).Keeps (·.runPt) := by
  simp [enqueueThread]

theorem dequeueThread_keeps (thread : Nat) : (dequeueThread thread : Part Sem Unit).Keeps (·.runPt) := by
  simp [dequeueThread]

theorem scan_keeps (levels pri : Nat) : (scan levels pri : Part Sem Nat).Keeps (·.runPt) := by
  induction levels generalizing pri with
  | zero => trivial
  | succ levels ih => simp [scan, ih]

theorem selectNext_keeps (now : Nat) : (selectNext now : Part Sem Unit).Keeps (·.runPt) := by
  apply Code.keeps_bind (scan_keeps _ _)
  intro pri
  simp [enterIdle, takeThread]

theorem schedule_keeps (times : Readings) : (schedule times : Part Sem Unit).Keeps (·.runPt) := by
  simp [schedule, settle, exitIdle, putBack, selectNext_keeps]

theorem walk_keeps (key : View Sem → Nat → Nat) (thread fuel node : Nat) :
    (walk key thread fuel node).Keeps (·.runPt) := by
  induction fuel generalizing node with
  | zero => trivial
  | succ fuel ih => simp [walk, ih]

theorem unsleep_keeps (first second : Nat) : (unsleep first second : Part Sem Unit).Keeps (·.runPt) := by
  simp [unsleep, enqueueThread_keeps]

theorem sleep_keeps (now sleepTime : Nat) :
    (sleep now sleepTime : Part Sem Unit).Keeps (·.runPt) := by
  simp [sleep, armTimer, setSleeper, dequeueThread_keeps, walk_keeps]

variable [DecidableEq Sem]

theorem schedUnblock_keeps (sem : Sem) : (schedUnblock sem).Keeps (·.runPt) := by
  simp [schedUnblock, setWaiter, enqueueThread_keeps]

theorem schedBlock_keeps (sem : Sem) : (schedBlock sem).Keeps (·.runPt) := by
  simp [schedBlock, setWaiter, dequeueThread_keeps, walk_keeps]

/-! The semaphores -/

theorem schedBlock_within {k k' : Kernel Sem} {c : Core} {sem : Sem}
    (blocked : Scheduler.schedBlock k c sem = some k') : Within c k k' := by
  obtain ⟨_, _, rfl⟩ := Option.map_eq_some_iff.mp blocked
  exact within_shared c k _ k.alarm0

theorem schedUnblock_run (sem : Sem) (c : Core) (k : Kernel Sem) :
    (schedUnblock sem).run (look c k) =
      some ((), look c { k with toShared := unblockShared k.toShared sem }) := by
  simp [schedUnblock, setWaiter, unblockShared, enqueueThread_run, look]

theorem schedBlock_run (sem : Sem) (c : Core) (k : Kernel Sem) :
    (schedBlock sem).run (look c k) =
      (Scheduler.schedBlock k c sem).map fun k' => ((), look c k') := by
  simp only [schedBlock, Scheduler.schedBlock, insertThread]
  simp only [Code.run_bind, Code.run_read, Option.bind_some, look, dequeueThread_run]
  generalize Scheduler.dequeueThread _ (k.runPt c) = d
  by_cases empty : d.bthreadsRoot sem = null
  · simp [setWaiter, empty]
  · by_cases before : d.priority (k.runPt c) < d.priority (d.bthreadsRoot sem)
    · simp [setWaiter, empty, before]
    · simp [walk_run, empty, before, Option.map_map, Function.comp_def]

end Runs

end MulticoreRtos.SectionCode
