import MulticoreRtos.LockOrder
import MulticoreRtos.SpinlockNesting

/-!
The order in which the code nests its spinlocks: `BGSCHEDULER`, then
`COUNTING_SEMA4`, then `SCHEDULER`, then `SPINLOCK31`. No cores ever wait for
each other in a ring.
-/

namespace MulticoreRtos.SpinlockOrder

open LockDiscipline LockOrder SpinlockNesting Transition
open Scheduler (Core priorityLvlCnt)
open Heap (heapSize)

def rank : Lock → Nat
  | .bgScheduler => 0
  | .countingSema4 => 1
  | .scheduler => 2
  | .spinlock31 => 3

def pre : Fn → Set Lock → Prop
  | .initSemaphore _ _, _ => True
  | .malloc _, locks | .free, locks | .heapStats, locks | .bWait _, locks | .bSignal _, locks =>
      .spinlock31 ∉ locks
  | .schedule, locks | .schedBlock _, locks | .schedUnblock _, locks | .sleep _, locks
  | .unsleep, locks | .schedulerStats, locks | .addThread _ _, locks | .kill, locks =>
      .scheduler ∉ locks ∧ .spinlock31 ∉ locks
  | .cWaitLoop _, locks => .countingSema4 ∈ locks ∧ .scheduler ∉ locks ∧ .spinlock31 ∉ locks
  | .cWait _, locks | .cSignal _, locks | .fifoPut _, locks | .uartRxInterrupt, locks =>
      .countingSema4 ∉ locks ∧ .scheduler ∉ locks ∧ .spinlock31 ∉ locks
  | .addPeriodicTask, locks | .scheduleBackground, locks | .initScheduler, locks => locks = ∅

def order : Order Lock Fn := ⟨rank, pre⟩

abbrev InOrder (post : Set Lock → Prop) (prog : Stmt) (locks : Set Lock) : Prop :=
  Ordered callable contract order post prog locks

abbrev Climbs (f : Fn) (prog : Stmt) : Prop :=
  ∀ locks, pre f locks → InOrder (· = locks) prog locks

section Sections

variable {locks : Set Lock} {post : Set Lock → Prop} {l : Lock}

theorem above_empty (l : Lock) : order.Above l ∅ := nofun

theorem above_counting (counting : .countingSema4 ∉ locks) (scheduling : .scheduler ∉ locks)
    (testing : .spinlock31 ∉ locks) : order.Above .countingSema4 locks := by
  intro m owned
  cases m with
  | bgScheduler => decide
  | countingSema4 => exact absurd owned counting
  | scheduler => exact absurd owned scheduling
  | spinlock31 => exact absurd owned testing

theorem above_scheduler (scheduling : .scheduler ∉ locks) (testing : .spinlock31 ∉ locks) :
    order.Above .scheduler locks := by
  intro m owned
  cases m with
  | bgScheduler | countingSema4 => decide
  | scheduler => exact absurd owned scheduling
  | spinlock31 => exact absurd owned testing

theorem above_spinlock31 (testing : .spinlock31 ∉ locks) : order.Above .spinlock31 locks := by
  intro m owned
  cases m with
  | bgScheduler | countingSema4 | scheduler => decide
  | spinlock31 => exact absurd owned testing

theorem critical_ordered {next : Bool → Stmt} (above : order.Above l locks)
    (inside : ∀ primask, InOrder post (next primask) (insert l locks)) :
    InOrder post (startCritical fun primask => .lock l (next primask)) locks :=
  fun primask => ⟨above, inside primask⟩

theorem unlock_ordered {next : Stmt} (above : order.Above l locks)
    (outside : InOrder post next locks) : InOrder post (.unlock l next) (insert l locks) := by
  change InOrder post next (insert l locks \ {l})
  rw [Set.insert_sdiff_self_of_notMem above.fresh]
  exact outside

theorem schedulerSection_ordered {next : Stmt} (above : order.Above .scheduler locks)
    (outside : InOrder post next locks) : InOrder post (schedulerSection next) locks :=
  critical_ordered above fun _ => unlock_ordered above outside

theorem atomicTestAndSet_ordered {sem : Sem} {next : Bool → Stmt} (testing : .spinlock31 ∉ locks)
    (outside : ∀ taken, (.scheduler ∈ locks → taken = false) → InOrder post (next taken) locks) :
    InOrder post (atomicTestAndSet sem next) locks := by
  have above := above_spinlock31 testing
  refine critical_ordered above fun _ taken permitted => unlock_ordered above (outside taken ?_)
  intro scheduling
  exact permitted (.inr scheduling)

theorem wake_ordered {sem : Sem} {next : Stmt} (testing : .spinlock31 ∉ locks)
    (after : InOrder post next locks) : InOrder post (wake sem next) locks := by
  intro waiting permitted
  cases waiting with
  | false => exact after
  | true =>
      have scheduling : .scheduler ∉ locks := fun owned => by simpa using permitted owned
      refine ⟨⟨scheduling, testing⟩, fun higher => ?_⟩
      cases higher with
      | false => exact after
      | true => exact ⟨⟨scheduling, testing⟩, fun _ => after⟩

end Sections

theorem schedule_climbs : Climbs .schedule schedule := by
  rintro locks ⟨scheduling, testing⟩
  have above := above_scheduler scheduling testing
  exact critical_ordered above fun _ => unlock_ordered (l := .scheduler) above rfl

theorem schedBlock_climbs (sem : Sem) : Climbs (.schedBlock sem) schedBlock := by
  rintro locks ⟨scheduling, testing⟩
  exact schedulerSection_ordered (above_scheduler scheduling testing)
    ⟨⟨scheduling, testing⟩, fun _ => rfl⟩

theorem schedUnblock_climbs (sem : Sem) : Climbs (.schedUnblock sem) schedUnblock := by
  rintro locks ⟨scheduling, testing⟩
  exact schedulerSection_ordered (above_scheduler scheduling testing) fun _ _ => rfl

theorem sleep_climbs (sleepTime : Nat) : Climbs (.sleep sleepTime) (sleep sleepTime) := by
  rintro locks ⟨scheduling, testing⟩
  unfold sleep
  split
  · exact rfl
  · exact schedulerSection_ordered (above_scheduler scheduling testing)
      ⟨⟨scheduling, testing⟩, fun _ => rfl⟩

theorem unsleep_climbs : Climbs .unsleep unsleep := by
  rintro locks ⟨scheduling, testing⟩ empty _
  cases empty with
  | true => exact rfl
  | false => exact schedulerSection_ordered (above_scheduler scheduling testing) rfl

theorem schedulerStats_climbs : Climbs .schedulerStats schedulerStats := by
  rintro locks ⟨scheduling, testing⟩
  exact schedulerSection_ordered (above_scheduler scheduling testing) rfl

theorem bWait_climbs (sem : Sem) : Climbs (.bWait sem) (bWait sem) := by
  intro locks testing
  refine atomicTestAndSet_ordered testing fun taken idle => ?_
  cases taken with
  | false => exact rfl
  | true =>
      -- contention: `sched_block` goes back down to `SCHEDULER`
      have scheduling : .scheduler ∉ locks := fun owned => by simpa using idle owned
      exact ⟨⟨scheduling, testing⟩, fun _ => ⟨testing, fun _ => rfl⟩⟩

theorem bSignal_climbs (sem : Sem) : Climbs (.bSignal sem) (bSignal sem) := by
  intro locks testing stat
  have above := above_spinlock31 testing
  exact critical_ordered above fun _ => unlock_ordered above (wake_ordered testing rfl)

theorem malloc_climbs (size : Nat) : Climbs (.malloc size) (malloc size) := by
  intro locks testing
  unfold malloc
  split
  · exact rfl
  · exact ⟨testing, fun _ _ _ => ⟨testing, fun _ => rfl⟩⟩

theorem free_climbs : Climbs .free free := by
  intro locks testing empty _
  cases empty with
  | true => exact rfl
  | false => exact ⟨testing, fun _ _ _ => ⟨testing, fun _ => rfl⟩⟩

theorem heapStats_climbs : Climbs .heapStats heapStats := by
  intro locks testing
  exact ⟨testing, fun _ => ⟨testing, fun _ => rfl⟩⟩

theorem cWaitLoop_climbs (sem : Sem) : Climbs (.cWaitLoop sem) (cWaitLoop sem) := by
  rintro locks ⟨counting, scheduling, testing⟩ nonzero _
  cases nonzero with
  | true => exact rfl
  | false =>
      have unscheduling : .scheduler ∉ locks \ {.countingSema4} := fun kept => scheduling kept.1
      have untesting : .spinlock31 ∉ locks \ {.countingSema4} := fun kept => testing kept.1
      have again : insert .countingSema4 (locks \ {.countingSema4}) = locks :=
        Set.insert_sdiff_self_of_mem counting
      refine ⟨⟨unscheduling, untesting⟩, fun _ =>
        ⟨above_counting (fun kept => kept.2 rfl) unscheduling untesting, ?_⟩⟩
      rw [again]
      exact ⟨⟨counting, scheduling, testing⟩, fun _ => rfl⟩

theorem cWait_climbs (sem : Sem) : Climbs (.cWait sem) (cWait sem) := by
  rintro locks ⟨counting, scheduling, testing⟩
  have above := above_counting counting scheduling testing
  refine critical_ordered above fun _ => ⟨⟨Set.mem_insert _ _, ?_, ?_⟩, fun _ =>
    unlock_ordered (l := .countingSema4) above rfl⟩
  · simpa using scheduling
  · simpa using testing

theorem cSignal_climbs (sem : Sem) : Climbs (.cSignal sem) (cSignal sem) := by
  rintro locks ⟨counting, scheduling, testing⟩
  have above := above_counting counting scheduling testing
  have untesting : .spinlock31 ∉ insert Lock.countingSema4 locks := by simpa using testing
  exact critical_ordered above fun _ =>
    wake_ordered untesting (unlock_ordered (l := .countingSema4) above rfl)

theorem addThread_climbs (stackSize priority : Nat) :
    Climbs (.addThread stackSize priority) (addThread stackSize priority) := by
  rintro locks ⟨scheduling, testing⟩
  have above := above_scheduler scheduling testing
  have allocating : .spinlock31 ∉ insert Lock.scheduler locks := by simpa using testing
  refine critical_ordered above fun primask => ?_
  split
  · trivial
  · refine ⟨allocating, fun null => ?_⟩
    cases null with
    | true => exact unlock_ordered (l := .scheduler) above rfl
    | false =>
        refine ⟨allocating, fun null => ?_⟩
        cases null with
        | true => exact ⟨allocating, fun _ => unlock_ordered (l := .scheduler) above rfl⟩
        | false => exact unlock_ordered (l := .scheduler) above rfl

theorem kill_climbs : Climbs .kill kill := by
  rintro locks ⟨scheduling, testing⟩
  have above := above_scheduler scheduling testing
  exact critical_ordered above fun _ => unlock_ordered above
    ⟨testing, fun _ => ⟨testing, fun _ => ⟨⟨scheduling, testing⟩, fun _ => rfl⟩⟩⟩

theorem addPeriodicTask_climbs : Climbs .addPeriodicTask addPeriodicTask := by
  rintro locks rfl
  have allocating : .spinlock31 ∉ insert Lock.bgScheduler (∅ : Set Lock) := by simp
  refine critical_ordered (above_empty _) fun _ => ⟨allocating, fun null => ?_⟩
  cases null with
  | true => trivial
  | false => exact unlock_ordered (l := .bgScheduler) (above_empty _) rfl

theorem user_below {shielded : Bool} {locks : Set Lock} (background : locks ⊆ {.bgScheduler})
    {f : Fn} (api : callable f = true) (allowed : allows shielded locks f) : pre f locks := by
  have scheduling : Lock.scheduler ∉ locks := fun owned => nomatch background owned
  have counting : Lock.countingSema4 ∉ locks := fun owned => nomatch background owned
  have testing : Lock.spinlock31 ∉ locks := fun owned => nomatch background owned
  have unlocked : Lock.bgScheduler ∉ locks → locks = ∅ := fun free =>
    Set.eq_empty_of_forall_notMem fun l owned => free (background owned ▸ owned)
  cases f with
  | initSemaphore sem value => trivial
  | malloc | free | heapStats | bWait | bSignal => exact testing
  | schedule | schedBlock | schedUnblock | sleep | unsleep | schedulerStats | addThread | kill =>
      exact ⟨scheduling, testing⟩
  | cWait | cSignal | fifoPut | uartRxInterrupt => exact ⟨counting, scheduling, testing⟩
  | addPeriodicTask => exact unlocked fun running => (allowed running).1 rfl
  | scheduleBackground => exact unlocked fun running => (allowed running).2.1 rfl
  | cWaitLoop | initScheduler => cases api

theorem scheduleBackground_climbs : Climbs .scheduleBackground scheduleBackground := by
  rintro locks rfl
  refine critical_ordered (above_empty _) fun _ => ⟨fun f shielded api allowed => ?_,
    unlock_ordered (l := .bgScheduler) (above_empty _) rfl⟩
  exact user_below (by simp) api allowed

theorem fifoPut_climbs (fifo : Nat) : Climbs (.fifoPut fifo) (fifoPut fifo) := by
  intro locks below
  exact ⟨below, fun _ => ⟨below.2.2, fun _ => ⟨below.2.2, fun _ => ⟨below, fun _ => rfl⟩⟩⟩⟩

theorem uartRxInterrupt_climbs : Climbs .uartRxInterrupt uartRxInterrupt := by
  intro locks below empty _
  cases empty with
  | true => exact rfl
  | false => exact ⟨below, fun _ => ⟨below, fun _ => rfl⟩⟩

theorem initScheduler_climbs : Climbs .initScheduler initScheduler := by
  rintro locks rfl
  have allocating : .spinlock31 ∉ insert Lock.scheduler (∅ : Set Lock) := by simp
  refine ⟨above_empty _, allocating, fun null => ?_⟩
  cases null with
  | true => trivial
  | false =>
      refine ⟨allocating, fun null => ?_⟩
      cases null with
      | true => trivial
      | false => trivial

theorem handler_climbs (interrupt : Handler) : InOrder (· = ∅) (handler interrupt) ∅ := by
  cases interrupt with
  | systick | timer0 => exact ⟨by simp [order, pre], fun _ => rfl⟩
  | timer1 => exact ⟨rfl, fun _ => rfl⟩
  | uart0 =>
      intro tx _
      cases tx with
      | true => exact rfl
      | false =>
          intro rx _
          cases rx with
          | false => exact rfl
          | true => exact ⟨by simp [order, pre], fun _ => rfl⟩

theorem ranked : Ranked code contract order where
  body f := by
    cases f with
    | malloc size => exact malloc_climbs size
    | free => exact free_climbs
    | heapStats => exact heapStats_climbs
    | initSemaphore sem value => exact fun _ _ => rfl
    | bWait sem => exact bWait_climbs sem
    | bSignal sem => exact bSignal_climbs sem
    | cWait sem => exact cWait_climbs sem
    | cWaitLoop sem => exact cWaitLoop_climbs sem
    | cSignal sem => exact cSignal_climbs sem
    | initScheduler => exact initScheduler_climbs
    | schedule => exact schedule_climbs
    | addThread stackSize priority => exact addThread_climbs stackSize priority
    | schedBlock sem => exact schedBlock_climbs sem
    | schedUnblock sem => exact schedUnblock_climbs sem
    | sleep sleepTime => exact sleep_climbs sleepTime
    | unsleep => exact unsleep_climbs
    | kill => exact kill_climbs
    | schedulerStats => exact schedulerStats_climbs
    | scheduleBackground => exact scheduleBackground_climbs
    | addPeriodicTask => exact addPeriodicTask_climbs
    | fifoPut fifo => exact fifoPut_climbs fifo
    | uartRxInterrupt => exact uartRxInterrupt_climbs
  handler := handler_climbs

theorem user_ordered {next : Stmt} (after : InOrder (· = ∅) next ∅) :
    InOrder (· = ∅) (.user next) ∅ :=
  ⟨fun _ _ api allowed => user_below (Set.empty_subset _) api allowed, after⟩

theorem powerOn_ordered {s : Machine} (start : PowerOn s) :
    LockOrder.Inv code contract order s := by
  have unlocked : ∀ c, held s.owner c = ∅ := by
    intro c
    refine Set.eq_empty_of_forall_notMem fun l owned => ?_
    cases (start.unlocked l).symm.trans owned
  constructor
  · intro c
    rw [unlocked c]
    cases c with
    | cpu0 =>
        rw [start.main]
        exact user_ordered ⟨rfl, fun _ => rfl⟩
    | cpu1 =>
        rw [start.core1]
        exact ⟨rfl, fun _ => rfl⟩
  · simp [start.thread]
  · intro t
    rw [start.threads t]
    exact user_ordered rfl

/-- Cores never wait for each other: whoever holds the lock that a core spins on
can take every lock it wants itself. -/
theorem no_deadlock_along_runs {s : Machine} (reached : Reaches (step code) Guard PowerOn s)
    {c d : Core} (waits : WaitsFor s c d) :
    c ≠ d ∧ ∀ l, (s.core d).context.now.wants = some l → s.owner l = none := by
  have inv := run_invariant verified ranked (fun _ _ allowed => allowed)
    (fun _ start => powerOn_inv start) (fun _ start => powerOn_ordered start) reached
  have distinct : c ≠ d := by
    rintro rfl
    exact inv.no_deadlock c (.single waits)
  refine ⟨distinct, fun l wanted => ?_⟩
  cases owned : s.owner l with
  | none => rfl
  | some e =>
      have onward : WaitsFor s d e := ⟨l, wanted, owned⟩
      have back : e = c ∨ e = d := by cases c <;> cases d <;> cases e <;> simp_all
      rcases back with rfl | rfl
      · exact absurd (.tail (.single waits) onward) (inv.no_deadlock e)
      · exact absurd (.single onward) (inv.no_deadlock e)

def contendedScheduler : List Step :=
  startUp ++ [.enter .cpu0 .schedulerStats] ++ runs .cpu0 3 ++
    [.enter .cpu1 .schedulerStats] ++ runs .cpu1 2

theorem no_deadlock_along_runs_contended :
    ∃ s ∈ exec (step code) reset contendedScheduler, WaitsFor s .cpu1 .cpu0 ∧
      ∀ l, (s.core .cpu0).context.now.wants = some l → s.owner l = none := by
  obtain ⟨s, executed, wanted, owned⟩ : ∃ s ∈ exec (step code) reset contendedScheduler,
      (s.core .cpu1).context.now.wants = some .scheduler ∧
        s.owner .scheduler = some .cpu0 := by
    decide +kernel
  have allowed : Allowed (step code) Guard reset contendedScheduler := by decide +kernel
  have waits : WaitsFor s .cpu1 .cpu0 := ⟨.scheduler, wanted, owned⟩
  exact ⟨s, executed, waits, (no_deadlock_along_runs
    (exec_reaches contendedScheduler (.start reset_powerOn) allowed executed) waits).2⟩

end MulticoreRtos.SpinlockOrder
