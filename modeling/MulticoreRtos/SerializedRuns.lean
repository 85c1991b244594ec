import MulticoreRtos.SerializedCalls

/-!
Runs of the serialized machine. Along every run whose calls meet `Guard` the
rings, counters and queues describe the live threads exactly, and every dispatch
selects the best active thread. A `kill` outside the guard breaks both: the
thread `schedule()` selects inside `free` stays `RUNNING` and no core runs it.
-/

namespace MulticoreRtos.Serialized

open Scheduler Transition LinkedList
open Heap (null)

variable {Sem : Type} [DecidableEq Sem] {layout : Layout Sem} {m m' : Machine Sem} {q : Queues Sem}

def Guard (layout : Layout Sem) (m : Machine Sem) : Call Sem → Prop
  | .initScheduler _ => HeapSpared layout m 128
  | .addThread stackSize priority => priority < priorityLvlCnt → HeapSpared layout m stackSize
  | .kill cpu _ _ _ => QuietKill layout m.kernel cpu
  | _ => True

instance (layout : Layout Sem) (m : Machine Sem) (call : Call Sem) :
    Decidable (Guard layout m call) :=
  match call with
  | .initScheduler _ => inferInstanceAs (Decidable (HeapSpared _ _ _))
  | .addThread _ _ => inferInstanceAs (Decidable (_ → HeapSpared _ _ _))
  | .kill _ _ _ _ => inferInstanceAs (Decidable (QuietKill _ _ _))
  | .schedule _ _ | .schedBlock _ _ _ | .schedUnblock _ _ | .sleep _ _ _ _ | .unsleep _ _ =>
      inferInstanceAs (Decidable True)

/-- Every call that can be made completes and keeps the invariant. -/
theorem call_completes (inv : Inv layout m q) {call : Call Sem} (enabled : Enabled layout m call)
    (guarded : Guard layout m call) : Completes layout m q call := by
  cases call with
  | initScheduler cpu => exact initScheduler_completes inv enabled.1 guarded
  | addThread stackSize priority => exact addThread_completes inv guarded
  | schedule cpu times => exact schedule_completes inv enabled times
  | schedBlock cpu sem times => exact schedBlock_completes inv enabled sem times
  | schedUnblock cpu sem => exact schedUnblock_completes inv cpu enabled.2
  | sleep cpu now sleepTime times => exact sleep_completes inv enabled now sleepTime times
  | unsleep first second => exact unsleep_completes inv first second
  | kill cpu freeStack freeTcb last => exact kill_completes inv enabled guarded freeStack freeTcb last

theorem step_enabled {call : Call Sem} (stepped : step layout m call = some m') :
    m.kernel.schedulerHeld = false ∧ Enabled layout m call ∧ perform layout m call = some m' := by
  by_cases held : m.kernel.schedulerHeld = true
  · simp [step, held] at stepped
  · by_cases enabled : Enabled layout m call
    · simp only [step, held, enabled, if_true] at stepped
      exact ⟨by simpa using held, enabled, stepped⟩
    · simp [step, held, enabled] at stepped

theorem inv_step (inv : Inv layout m q) {call : Call Sem} (guarded : Guard layout m call)
    (stepped : step layout m call = some m') :
    ∃ q', Inv layout m' q' ∧
      (q'.members .asleep, m'.kernel.resumeTick) = sleepersAfter m.kernel q call := by
  obtain ⟨_, enabled, performed⟩ := step_enabled stepped
  obtain ⟨after, q', result, inv', sleepers⟩ := call_completes inv enabled guarded
  obtain rfl : after = m' := Option.some.inj (result.symm.trans performed)
  exact ⟨q', inv', sleepers⟩

def noQueues : Queues Sem where
  place _ := .gone
  members _ := []
  running _ := null

omit [DecidableEq Sem] in
theorem powerOn_inv (on : PowerOn layout m) : Inv layout m noQueues := by
  constructor
  · constructor
    · constructor
      · constructor
        · intro t spot linked
          simp [noQueues, linked.symm]
        · exact fun _ => List.nodup_nil
        · exact fun _ live => absurd rfl live
        · exact fun _ busy => absurd rfl busy
        · exact fun _ _ busy => absurd rfl busy
      · intro spot
        cases spot with
        | gone => trivial
        | ready p => exact congrFun on.roots p
        | asleep => exact on.sleepers
        | waiting s => exact congrFun on.waiters s
      · exact fun _ => trivial
      · exact fun p _ => ⟨congrFun on.actives p, congrFun on.runners p⟩
    · intro t
      simp [noQueues, on.live]
    · rw [on.heap]
      exact ⟨Heap.heapInit_wellFormed layout.place, by simp [Heap.initial]⟩
    · have nobody (t : Nat) : ¬ Holder m.kernel noQueues t := by
        rintro (live | ⟨present, c, same⟩)
        · exact live rfl
        · rw [on.idleThread] at same
          exact present same.symm
      exact ⟨fun t _ holds => absurd holds (nobody t), fun t _ _ _ holds => absurd holds (nobody t)⟩
    · exact fun c there => absurd (congrFun on.idleThread c) there
    · exact fun c _ there => absurd (congrFun on.idleThread c) there
    · exact on.blackHole
    · exact fun c there => absurd (congrFun on.idleThread c) there
    · exact fun c => congrFun on.pendSv c
    · intro c _ p root rest nodes
      cases nodes
    · simp [on.decisions]
  · exact fun c => Or.inl ⟨congrFun on.current c, congrFun on.idleThread c, rfl⟩

theorem run_inv (reached : Reaches (step layout) (Guard layout) (PowerOn layout) m) :
    ∃ q, Inv layout m q :=
  reached.invariant (fun m => ∃ q, Inv layout m q) (fun _ on => ⟨noQueues, powerOn_inv on⟩) <| by
    rintro before call after ⟨q, inv⟩ guarded stepped
    obtain ⟨q', inv', _⟩ := inv_step inv guarded stepped
    exact ⟨q', inv'⟩

/-! A board with one semaphore, `heap_lock` -/

def board : Layout Unit := ⟨Heap.sramPlacement, 0x20000400, (), by decide, by decide⟩

def reset : Machine Unit where
  kernel :=
    { nextTcb := fun _ => null
      prevTcb := fun _ => null
      state := fun _ => .dead
      resumeTick := fun _ => 0
      priority := fun _ => 0
      activePriorityCount := fun _ => 0
      runningPriorityCount := fun _ => 0
      threadSchedule := fun _ => null
      sleepScheduleRoot := null
      bthreadsRoot := fun _ => null
      sp := fun _ => 0
      id := fun _ => 0
      stack := fun _ => 0
      runPt := fun _ => null
      nextRunPt := fun _ => null
      idleThread := fun _ => null
      idleTime := fun _ => 0
      idleTimeStart := fun _ => 0
      lifetimeThreadCount := 0
      alarm0 := 0
      pendSv := fun _ => false
      schedulerHeld := false }
  heap := Heap.initial
  live := ∅
  decisions := []

theorem reset_powerOn : PowerOn board reset :=
  ⟨rfl, rfl, rfl, rfl, rfl, rfl, rfl, rfl, rfl, rfl, rfl, rfl, rfl⟩

def readings : Readings := ⟨0, 0, 0⟩

def shortRun : List (Call Unit) :=
  [.addThread 1024 1, .addThread 1024 2, .initScheduler .cpu0, .schedule .cpu0 readings,
    .kill .cpu0 readings readings readings]

/-- Three threads of core 1 wait for `heap_lock`, which the more urgent thread of
core 0 gives back at the end of a `malloc`; then that thread ends. -/
def disturbedKill : List (Call Unit) :=
  [.addThread 1024 1, .addThread 1024 1, .addThread 1024 1, .addThread 1024 0,
    .initScheduler .cpu0, .initScheduler .cpu1, .schedBlock .cpu1 () readings,
    .schedBlock .cpu1 () readings, .schedBlock .cpu1 () readings, .schedUnblock .cpu0 (),
    .schedule .cpu0 readings, .kill .cpu0 readings readings readings]

/-! The run queues -/

def Ready (k : Shared Sem) (t : Nat) : Prop := k.state t = .running ∨ k.state t = .active

def OnList (k : Shared Sem) (t : Nat) (spot : Place Sem) : Prop :=
  spot ≠ .gone ∧ Met null k.nextTcb (rootOf k spot) t

def population (k : Shared Sem) (live : Finset Nat) (p : Nat) (wanted : ThreadState) : Nat :=
  (live.filter fun t => k.priority t = p ∧ k.state t = wanted).card

structure RunQueueOk (k : Shared Sem) (live : Finset Nat) : Prop where
  empty : ∀ p < priorityLvlCnt,
    k.threadSchedule p = null ↔ ∀ t ∈ live, k.priority t = p → ¬ Ready k t
  ring : ∀ p < priorityLvlCnt, ∃ nodes : List Nat,
    Ring null k.nextTcb k.prevTcb (k.threadSchedule p) nodes ∧ nodes.Nodup ∧
      ∀ t, t ∈ nodes ↔ t ∈ live ∧ k.priority t = p ∧ Ready k t
  active : ∀ p < priorityLvlCnt, k.activePriorityCount p = population k live p .active
  running : ∀ p < priorityLvlCnt, k.runningPriorityCount p = population k live p .running
  placed : ∀ t ∈ live, ∃! spot, OnList k t spot
  level : ∀ t ∈ live, ∀ p, OnList k t (.ready p) → k.priority t = p

section Queues
variable {slots : Slots} {k : Shared Sem} {live : Finset Nat}

omit [DecidableEq Sem]

theorem on_list (rep : Rep slots k q) (t : Nat) (spot : Place Sem) :
    OnList k t spot ↔ spot ≠ .gone ∧ q.place t = spot := by
  apply and_congr_right
  intro linked
  rw [← rep.listed.members t spot linked]
  have links := rep.joined spot
  cases spot with
  | gone => exact absurd rfl linked
  | ready p =>
      apply Ring.met_iff links
      intro x member
      apply rep.listed.ne_null
      rw [(rep.listed.members x _ linked).mp member]
      exact linked
  | asleep => exact Chain.met_iff links
  | waiting s => exact Chain.met_iff links

theorem ready_members (rep : Rep slots k q) (alive : ∀ t, t ∈ live ↔ q.place t ≠ .gone) (p t : Nat) :
    t ∈ q.members (.ready p) ↔ t ∈ live ∧ k.priority t = p ∧ Ready k t := by
  rw [rep.listed.members t _ (by simp), alive]
  have fits := rep.stated t
  cases here : q.place t with
  | gone => simp
  | ready r =>
      rw [here] at fits
      obtain ⟨level, _, ready, _⟩ := fits
      simp [level, Ready, ready]
  | asleep =>
      rw [here] at fits
      simp [Ready, fits.2]
  | waiting s =>
      rw [here] at fits
      simp [Ready, fits.2]

theorem population_members (rep : Rep slots k q) (alive : ∀ t, t ∈ live ↔ q.place t ≠ .gone)
    (p : Nat) {wanted : ThreadState} (ready : wanted = .running ∨ wanted = .active) :
    inState k.state wanted (q.members (.ready p)) = population k live p wanted := by
  have same : (live.filter fun t => k.priority t = p ∧ k.state t = wanted) =
      ((q.members (.ready p)).filter fun t => k.state t = wanted).toFinset := by
    ext t
    simp only [Finset.mem_filter, List.mem_toFinset, List.mem_filter, decide_eq_true_eq,
      ready_members rep alive p t, Ready]
    constructor
    · rintro ⟨member, level, state⟩
      exact ⟨⟨member, level, by rwa [state]⟩, state⟩
    · rintro ⟨⟨member, level, _⟩, state⟩
      exact ⟨member, level, state⟩
  rw [population, same, List.toFinset_card_of_nodup ((rep.listed.distinct _).filter _), inState,
    List.countP_eq_length_filter]

theorem rep_runQueueOk (rep : Rep slots k q) (alive : ∀ t, t ∈ live ↔ q.place t ≠ .gone) :
    RunQueueOk k live := by
  constructor
  · intro p _
    have ring : Ring null k.nextTcb k.prevTcb (k.threadSchedule p) (q.members (.ready p)) :=
      rep.joined (.ready p)
    rw [ring.null_iff, List.eq_nil_iff_forall_not_mem]
    simp only [ready_members rep alive p, not_and]
  · intro p _
    exact ⟨q.members (.ready p), rep.joined (.ready p), rep.listed.distinct _,
      ready_members rep alive p⟩
  · intro p below
    rw [(rep.counted p below).active, population_members rep alive p (Or.inr rfl)]
  · intro p below
    rw [(rep.counted p below).running, population_members rep alive p (Or.inl rfl)]
  · intro t member
    refine ⟨q.place t, (on_list rep t _).mpr ⟨(alive t).mp member, rfl⟩, ?_⟩
    intro other listed
    exact ((on_list rep t other).mp listed).2.symm
  · intro t _ p listed
    have fits := rep.stated t
    rw [((on_list rep t _).mp listed).2] at fits
    exact fits.1

end Queues

/-- Along every run of guarded calls the rings and counters of all levels are
those of the live threads, and every live thread is on one list. -/
theorem run_queues_along_runs
    (reached : Reaches (step layout) (Guard layout) (PowerOn layout) m) :
    RunQueueOk m.kernel.toShared m.live := by
  obtain ⟨q, inv⟩ := run_inv reached
  exact rep_runQueueOk inv.base.rep inv.base.live

theorem run_queues_along_runs_board :
    ∃ m, exec (step board) reset shortRun = some m ∧ RunQueueOk m.kernel.toShared m.live := by
  obtain ⟨m, executed, _⟩ : ∃ m ∈ exec (step board) reset shortRun, m.live.card = 1 := by
    decide +kernel
  have allowed : Allowed (step board) (Guard board) reset shortRun := by decide +kernel
  exact ⟨m, executed,
    run_queues_along_runs (exec_reaches shortRun (.start reset_powerOn) allowed executed)⟩

/-- The lost threads are counted as running, so the next dispatch takes one of
them for an active thread. -/
theorem disturbed_kill_breaks_counts :
    ∃ m, Reaches (step board) Transition.free (PowerOn board) m ∧
      ¬ RunQueueOk m.kernel.toShared m.live := by
  let run := disturbedKill ++ [.schedule .cpu0 readings]
  obtain ⟨m, executed, counted⟩ : ∃ m ∈ exec (step board) reset run,
      m.kernel.activePriorityCount 1 ≠ population m.kernel.toShared m.live 1 .active := by
    decide +kernel
  refine ⟨m, exec_reaches run (.start reset_powerOn) (allowed_free _ _ _) executed, ?_⟩
  intro ok
  exact counted (ok.active 1 (by decide))

/-! Dispatch -/

structure DispatchesOk (layout : Layout Sem) (m : Machine Sem) : Prop where
  decided : ∀ d ∈ m.decisions, DispatchOk (· ∈ d.live) d.entry d.cpu d.chosen
  completes : ∀ call, m.kernel.schedulerHeld = false → Enabled layout m call →
    Guard layout m call → ∃ m', step layout m call = some m'
  running : ∀ t ∈ m.live, m.kernel.state t = .running ↔ ∃ c, m.kernel.runPt c = t
  current : ∀ c, NonIdle m.kernel c →
    m.kernel.runPt c ∈ m.live ∧ m.kernel.state (m.kernel.runPt c) = .running
  apart : ∀ c d, m.kernel.runPt c ≠ null → m.kernel.runPt c = m.kernel.runPt d → c = d

omit [DecidableEq Sem] in
theorem Inv.given_current (inv : Inv layout m q) {c : Core} (given : q.running c ≠ null) :
    m.kernel.runPt c = q.running c := by
  rcases inv.current c with ⟨_, _, free⟩ | ⟨_, _, same⟩
  · exact absurd free given
  · rwa [assigned, if_neg given] at same

omit [DecidableEq Sem] in
theorem Inv.runs_iff (inv : Inv layout m q) {t : Nat} (live : q.place t ≠ .gone) :
    m.kernel.state t = .running ↔ ∃ c, m.kernel.runPt c = t := by
  have present := inv.base.rep.listed.ne_null t live
  rw [inv.base.rep.runs_iff live]
  constructor
  · rintro ⟨c, given⟩
    exact ⟨c, (inv.given_current (by rwa [given])).trans given⟩
  · rintro ⟨c, rfl⟩
    have busy : NonIdle m.kernel c := by
      refine ⟨present, ?_⟩
      intro resting
      have idle := (inv.started present).1
      exact live (by rw [resting]; exact (inv.base.idle c idle).gone)
    exact ⟨c, (inv.runs busy).1⟩

omit [DecidableEq Sem] in
theorem Inv.current_apart (inv : Inv layout m q) {c d : Core} (started : m.kernel.runPt c ≠ null)
    (same : m.kernel.runPt c = m.kernel.runPt d) : c = d := by
  have there : m.kernel.runPt d ≠ null := by rwa [← same]
  by_cases c_idle : m.kernel.runPt c = m.kernel.idleThread c
  · by_cases d_idle : m.kernel.runPt d = m.kernel.idleThread d
    · exact inv.base.idleApart c d (inv.started started).1
        (c_idle.symm.trans (same.trans d_idle))
    · exact absurd (c_idle.symm.trans same)
        (inv.busy_not_idle ⟨there, d_idle⟩ (inv.started started).1)
  · obtain ⟨given, _, _⟩ := inv.runs ⟨started, c_idle⟩
    have d_busy : m.kernel.runPt d ≠ m.kernel.idleThread d := by
      intro resting
      exact inv.busy_not_idle ⟨started, c_idle⟩ (inv.started there).1 (same.trans resting).symm
    obtain ⟨d_given, _, _⟩ := inv.runs ⟨there, d_busy⟩
    exact inv.base.rep.listed.apart c d (by rwa [given]) (given.trans (same.trans d_given.symm))

/-- Along every run of guarded calls every dispatch up to now selected the best
active thread, or the idle thread when there was none, no call gets stuck, and
the running threads are the current ones of the cores. -/
theorem dispatches_along_runs
    (reached : Reaches (step layout) (Guard layout) (PowerOn layout) m) : DispatchesOk layout m := by
  obtain ⟨q, inv⟩ := run_inv reached
  constructor
  · exact inv.base.decided
  · intro call unlocked enabled guarded
    obtain ⟨m', _, performed, _⟩ := call_completes inv enabled guarded
    exact ⟨m', by simp [step, unlocked, enabled, performed]⟩
  · intro t member
    exact inv.runs_iff ((inv.base.live t).mp member)
  · intro c busy
    obtain ⟨_, runs, here⟩ := inv.runs busy
    exact ⟨(inv.base.live _).mpr (by simp [here]), runs⟩
  · exact fun _ _ => inv.current_apart

theorem dispatches_along_runs_board :
    ∃ m, exec (step board) reset shortRun = some m ∧ m.decisions.length = 3 ∧
      DispatchesOk board m := by
  obtain ⟨m, executed, three⟩ : ∃ m ∈ exec (step board) reset shortRun, m.decisions.length = 3 := by
    decide +kernel
  have allowed : Allowed (step board) (Guard board) reset shortRun := by decide +kernel
  exact ⟨m, executed, three,
    dispatches_along_runs (exec_reaches shortRun (.start reset_powerOn) allowed executed)⟩

/-- Two of the three running threads are on no core. -/
theorem disturbed_kill_strands_threads :
    ∃ m, Reaches (step board) Transition.free (PowerOn board) m ∧ ¬ DispatchesOk board m := by
  obtain ⟨m, executed, t, member, runs, nowhere⟩ : ∃ m ∈ exec (step board) reset disturbedKill,
      ∃ t ∈ m.live, m.kernel.state t = .running ∧
        m.kernel.runPt .cpu0 ≠ t ∧ m.kernel.runPt .cpu1 ≠ t := by
    decide +kernel
  refine ⟨m, exec_reaches disturbedKill (.start reset_powerOn) (allowed_free _ _ _) executed, ?_⟩
  intro ok
  obtain ⟨c, current⟩ := (ok.running t member).mp runs
  cases c with
  | cpu0 => exact nowhere.1 current
  | cpu1 => exact nowhere.2 current

end MulticoreRtos.Serialized
