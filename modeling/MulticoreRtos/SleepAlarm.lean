import MulticoreRtos.SleepQueue

/-!
The alarm of the sleep queue. `TIMER_ALARM0` fires when the low 32 bits of the
clock equal its value and is then off until it is written again. `unsleep` takes
the head of the queue without a look at its tick, so no thread is woken early
only as long as the alarm is never set for a time before the head's deadline.
-/

namespace MulticoreRtos.SleepAlarm

open Scheduler Serialized SleepQueue Transition LinkedList
open Heap (null)

structure Wake where
  thread : Nat
  deadline : Nat
  clock : Nat
  deriving DecidableEq

structure Alarmed (Sem : Type) extends Timed Sem where
  armed : Bool
  wakes : List Wake

/-- `alarm` is the interrupt of `TIMER_ALARM0` at the clock `fire` with its call
of `unsleep`, which reads the clock twice. -/
inductive Event (Sem : Type) where
  | call (call : Call Sem)
  | alarm (fire first second : Nat)

variable {Sem : Type}

def wakesAfter (s : Alarmed Sem) (second : Nat) : List Wake :=
  let head := s.machine.kernel.sleepScheduleRoot
  if head = null then s.wakes else ⟨head, s.deadline head, second⟩ :: s.wakes

variable [DecidableEq Sem]

def step (layout : Layout Sem) (s : Alarmed Sem) : Event Sem → Option (Alarmed Sem)
  | .call (.sleep cpu now sleepTime times) =>
      if s.clock ≤ now ∧ 1000 * sleepTime < 2 ^ 32 then
        let thread := s.machine.kernel.runPt cpu
        (Serialized.step layout s.machine (.sleep cpu now sleepTime times)).map fun machine =>
          { s with
            machine
            clock := now
            deadline :=
              if sleepTime = 0 then s.deadline
              else Function.update s.deadline thread (now + 1000 * sleepTime)
            armed :=
              s.armed || (sleepTime ≠ 0 && machine.kernel.sleepScheduleRoot = thread) }
      else none
  | .call (.unsleep _ _) => none
  | .call call => (Serialized.step layout s.machine call).map fun machine => { s with machine }
  | .alarm fire first second =>
      if s.armed ∧ lowBits fire = s.machine.kernel.alarm0 ∧ s.clock ≤ fire ∧ fire ≤ first ∧
          first ≤ second then
        (Serialized.step layout s.machine (.unsleep first second)).map fun machine =>
          { s with
            machine
            clock := second
            -- the alarm is off once it has fired
            armed := machine.kernel.sleepScheduleRoot ≠ null
            wakes := wakesAfter s second }
      else none

structure Start (layout : Layout Sem) (s : Alarmed Sem) : Prop where
  machine : PowerOn layout s.machine
  wakes : s.wakes = []

/-- The branch of `unsleep` for a thread "that will resume soon" is taken only
when the next sleeper is due within 10 us of the second reading. -/
def Soon (s : Alarmed Sem) : Event Sem → Prop
  | .alarm _ first second =>
      let next := s.machine.kernel.nextTcb s.machine.kernel.sleepScheduleRoot
      s.machine.kernel.sleepScheduleRoot ≠ null → next ≠ null →
        s.machine.kernel.resumeTick next < (first % 2 ^ 64 + 10) % 2 ^ 64 →
          s.deadline next ≤ second + 10
  | .call _ => True

instance (s : Alarmed Sem) (event : Event Sem) : Decidable (Soon s event) :=
  match event with
  | .alarm _ _ _ => inferInstanceAs (Decidable (_ → _ → _ → _))
  | .call _ => inferInstanceAs (Decidable True)

def callOf : Event Sem → Call Sem
  | .call call => call
  | .alarm _ first second => .unsleep first second

def Guard (layout : Layout Sem) (s : Alarmed Sem) (event : Event Sem) : Prop :=
  Serialized.Guard layout s.machine (callOf event) ∧ Soon s event

instance (layout : Layout Sem) (s : Alarmed Sem) (event : Event Sem) :
    Decidable (Guard layout s event) :=
  inferInstanceAs (Decidable (_ ∧ _))

def NeverEarly (s : Alarmed Sem) : Prop := ∀ wake ∈ s.wakes, wake.deadline ≤ wake.clock

/-! What calls do to the alarm. -/

section Calls

omit [DecidableEq Sem]

def alarmOf (k : Kernel Sem) : Nat × Nat := (k.alarm0, k.sleepScheduleRoot)

theorem settle_alarm (k : Kernel Sem) (cpu : Core) (now : Nat) :
    alarmOf (settle k cpu now) = alarmOf k := by
  unfold settle putBack exitIdle alarmOf
  split <;> dsimp only <;> split <;> rfl

theorem takeThread_sleepers (k : Shared Sem) (pri : Nat) :
    (takeThread k pri).1.sleepScheduleRoot = k.sleepScheduleRoot := by
  unfold takeThread takeRoot markRunning
  dsimp only
  split <;> rfl

theorem schedule_alarm {k k' : Kernel Sem} {cpu : Core} {times : Readings}
    (scheduled : schedule k cpu times = some k') : alarmOf k' = alarmOf k := by
  obtain ⟨pri, _, rfl⟩ := Option.map_eq_some_iff.mp scheduled
  rw [← settle_alarm k cpu times.exitIdle]
  dsimp only
  split
  · rfl
  · simp only [alarmOf, takeThread_sleepers]

theorem runSchedule_alarm {m m' : Machine Sem} {cpu : Core} {times : Readings}
    (ran : runSchedule m cpu times = some m') : alarmOf m'.kernel = alarmOf m.kernel := by
  obtain ⟨k, scheduled, rfl⟩ := Option.map_eq_some_iff.mp ran
  exact schedule_alarm scheduled

theorem switch_alarm (m : Machine Sem) (cpu : Core) (sp : Nat) :
    alarmOf (switch m cpu sp).kernel = alarmOf m.kernel := by
  unfold switch
  split <;> rfl

theorem suspend_alarm {m m' : Machine Sem} {cpu : Core} {times : Readings}
    (suspended : suspend m cpu times = some m') : alarmOf m'.kernel = alarmOf m.kernel := by
  obtain ⟨ran, scheduled, rfl⟩ := Option.map_eq_some_iff.mp suspended
  rw [switch_alarm, runSchedule_alarm scheduled]

theorem dequeueThread_sleepers (k : Shared Sem) (thread : Nat) :
    (dequeueThread k thread).sleepScheduleRoot = k.sleepScheduleRoot := by
  unfold dequeueThread unlinkThread dropRunning
  split <;> split <;> rfl

theorem enqueueThread_sleepers (k : Shared Sem) (thread : Nat) :
    (enqueueThread k thread).sleepScheduleRoot = k.sleepScheduleRoot := by
  unfold enqueueThread
  dsimp only
  split <;> rfl

theorem bSignal_alarm [DecidableEq Sem] {m m' : Machine Sem} {cpu : Core} {sem : Sem}
    {times : Readings} (signalled : bSignal m cpu sem times = some m') :
    alarmOf m'.kernel = alarmOf m.kernel := by
  rcases bSignal_kernel signalled with same | ⟨woken, unblocked, outcome⟩
  · rw [same]
  · have kept : alarmOf woken.kernel = alarmOf m.kernel := by
      simp only [unblocked, alarmOf, unblockShared, enqueueThread_sleepers]
    rcases outcome with rfl | ran
    · exact kept
    · exact (runSchedule_alarm ran).trans kept

theorem free_alarm [DecidableEq Sem] {layout : Layout Sem} {m m' : Machine Sem} {cpu : Core}
    {ptr : Nat} {times : Readings} (released : Serialized.free layout m cpu ptr times = some m') :
    alarmOf m'.kernel = alarmOf m.kernel := by
  rcases free_kernel released with rfl | ⟨heap, signalled⟩
  · rfl
  · have kept := bSignal_alarm signalled
    exact kept

theorem kill_alarm [DecidableEq Sem] {layout : Layout Sem} {m m' : Machine Sem} {cpu : Core}
    {freeStack freeTcb last : Readings}
    (killed : kill layout m cpu freeStack freeTcb last = some m') :
    alarmOf m'.kernel = alarmOf m.kernel := by
  obtain ⟨stackless, first, killed⟩ := Option.bind_eq_some_iff.mp killed
  obtain ⟨removed, second, killed⟩ := Option.bind_eq_some_iff.mp killed
  obtain ⟨ran, scheduled, left⟩ := Option.bind_eq_some_iff.mp killed
  rw [← Option.some.inj left, switch_alarm, runSchedule_alarm scheduled]
  calc alarmOf removed.kernel
    _ = alarmOf stackless.kernel := free_alarm second
    _ = alarmOf (retire m (m.kernel.runPt cpu)).kernel := free_alarm first
    _ = alarmOf m.kernel := by simp only [alarmOf, retire, dequeueThread_sleepers]

theorem addThread_alarm {layout : Layout Sem} {m m' : Machine Sem} {stackSize priority : Nat}
    (added : Serialized.addThread layout m stackSize priority = some m') :
    alarmOf m'.kernel = alarmOf m.kernel := by
  rcases addThread_kernel added with same | held | ⟨newtcb, stack, entered⟩
  · rw [same]
  · rw [held]
    rfl
  · simp only [entered, alarmOf, Scheduler.addThread, enqueueThread_sleepers]

theorem initScheduler_alarm {layout : Layout Sem} {m m' : Machine Sem} {cpu : Core}
    (launched : initScheduler layout m cpu = some m') : alarmOf m'.kernel = alarmOf m.kernel := by
  rcases initScheduler_kernel launched with held | ⟨idleTcb, stack, dispatched⟩
  · rw [held]
    rfl
  · obtain ⟨pri, _, same⟩ := Option.map_eq_some_iff.mp dispatched
    rw [← same]
    dsimp only
    split <;> rfl

theorem schedBlock_alarm [DecidableEq Sem] {k k' : Kernel Sem} {cpu : Core} {sem : Sem}
    (blocked : schedBlock k cpu sem = some k') : alarmOf k' = alarmOf k := by
  obtain ⟨⟨next, root⟩, _, rfl⟩ := Option.map_eq_some_iff.mp blocked
  simp only [alarmOf, dequeueThread_sleepers]

theorem perform_alarm [DecidableEq Sem] {layout : Layout Sem} {m m' : Machine Sem}
    {call : Call Sem} (performed : perform layout m call = some m')
    (other : ∀ cpu now sleepTime times, call ≠ .sleep cpu now sleepTime times)
    (not_woken : ∀ first second, call ≠ .unsleep first second) :
    alarmOf m'.kernel = alarmOf m.kernel := by
  cases call with
  | initScheduler cpu => exact initScheduler_alarm performed
  | addThread stackSize priority => exact addThread_alarm performed
  | schedule cpu times => exact suspend_alarm performed
  | schedBlock cpu sem times =>
      obtain ⟨k, blocked, suspended⟩ := Option.bind_eq_some_iff.mp performed
      exact (suspend_alarm suspended).trans (schedBlock_alarm blocked)
  | schedUnblock cpu sem =>
      obtain ⟨⟨k, higher⟩, unblocked, left⟩ := Option.bind_eq_some_iff.mp performed
      obtain rfl := schedUnblock_kernel unblocked
      rw [← Option.some.inj left]
      simp only [alarmOf, unblockShared, enqueueThread_sleepers]
  | sleep cpu now sleepTime times => exact absurd rfl (other cpu now sleepTime times)
  | unsleep first second => exact absurd rfl (not_woken first second)
  | kill cpu freeStack freeTcb last => exact kill_alarm performed

theorem sleep_alarm {k k' : Kernel Sem} {cpu : Core} {now sleepTime : Nat}
    (asleep : sleep k cpu now sleepTime = some k') :
    (k'.sleepScheduleRoot = k.runPt cpu ∧ k'.alarm0 = tickAfter now sleepTime) ∨
      (k'.sleepScheduleRoot ≠ k.runPt cpu ∧ k.sleepScheduleRoot ≠ null ∧ alarmOf k' = alarmOf k) := by
  obtain ⟨⟨next, root⟩, inserted, rfl⟩ := Option.map_eq_some_iff.mp asleep
  by_cases head : root = k.runPt cpu
  · exact Or.inl ⟨head, if_pos head⟩
  · refine Or.inr ⟨head, ?_⟩
    simp only [insertThread, dequeueThread_sleepers] at inserted
    split at inserted
    next =>
      obtain ⟨_, rfl⟩ := Prod.mk.inj (Option.some.inj inserted)
      exact absurd rfl head
    next occupied =>
      split at inserted
      next =>
        obtain ⟨_, rfl⟩ := Prod.mk.inj (Option.some.inj inserted)
        exact absurd rfl head
      next =>
        obtain ⟨links, _, left⟩ := Option.map_eq_some_iff.mp inserted
        obtain ⟨_, rfl⟩ := Prod.mk.inj left
        exact ⟨occupied, by simp only [alarmOf, if_neg head]⟩

end Calls

/-! What the alarm promises. -/

variable {layout : Layout Sem} {s s' : Alarmed Sem} {q : Queues Sem}

/-- The alarm next fires when the head of the queue is due, or later. -/
structure AlarmSet (s : Alarmed Sem) : Prop where
  armed : s.armed = true
  fires : ∀ fire, s.clock ≤ fire → lowBits fire = s.machine.kernel.alarm0 →
    s.deadline s.machine.kernel.sleepScheduleRoot ≤ fire

structure Inv (layout : Layout Sem) (s : Alarmed Sem) (q : Queues Sem) : Prop where
  machine : Serialized.Inv layout s.machine q
  ticks : ∀ t ∈ q.members .asleep, s.machine.kernel.resumeTick t = lowBits (s.deadline t)
  near : ∀ t ∈ q.members .asleep, s.deadline t < s.clock + 2 ^ 32
  alarm : s.machine.kernel.sleepScheduleRoot ≠ null → AlarmSet s
  wakes : NeverEarly s

/-- An alarm set to the low bits of a time less than a turn of the low word away
does not fire before it. -/
theorem lowBits_reached {clock deadline fire : Nat} (near : deadline < clock + 2 ^ 32)
    (later : clock ≤ fire) (reached : lowBits fire = lowBits deadline) : deadline ≤ fire := by
  unfold lowBits at reached
  omega

omit [DecidableEq Sem] in
theorem sleepers_chain (inv : Serialized.Inv layout s.machine q) :
    Chain null s.machine.kernel.nextTcb s.machine.kernel.sleepScheduleRoot (q.members .asleep) :=
  inv.base.rep.joined .asleep

omit [DecidableEq Sem] in
theorem rearm_soon {k : Kernel Sem} {root first second : Nat} (present : root ≠ null)
    (soon : k.resumeTick root < (first % 2 ^ 64 + 10) % 2 ^ 64) :
    rearm k root first second = lowBits (second + 10) := by
  rw [rearm, if_neg present, if_pos soon, lowBits]
  omega

omit [DecidableEq Sem] in
theorem rearm_later {k : Kernel Sem} {root first second : Nat} (present : root ≠ null)
    (later : ¬ k.resumeTick root < (first % 2 ^ 64 + 10) % 2 ^ 64) :
    rearm k root first second = k.resumeTick root := by
  rw [rearm, if_neg present, if_neg later]

omit [DecidableEq Sem] in
theorem AlarmSet.wait (set : AlarmSet s) {now : Nat} (later : s.clock ≤ now) :
    AlarmSet { s with clock := now } :=
  ⟨set.armed, fun fire after reached => set.fires fire (later.trans after) reached⟩

theorem inv_sleep_on (inv : Inv layout s q) {cpu : Core} {now sleepTime : Nat} {times : Readings}
    {machine : Machine Sem} (later : s.clock ≤ now) (short : 1000 * sleepTime < 2 ^ 32)
    (positive : sleepTime ≠ 0)
    (moved : Serialized.step layout s.machine (.sleep cpu now sleepTime times) = some machine) :
    ∃ q', Inv layout
      { s with
        machine
        clock := now
        deadline := Function.update s.deadline (s.machine.kernel.runPt cpu) (now + 1000 * sleepTime)
        armed := s.armed || decide (machine.kernel.sleepScheduleRoot = s.machine.kernel.runPt cpu) }
      q' := by
  obtain ⟨_, enabled, performed⟩ := step_enabled moved
  have guarded : Serialized.Guard layout s.machine (.sleep cpu now sleepTime times) := trivial
  obtain ⟨q', machine_inv, sleepers⟩ := Serialized.inv_step inv.machine guarded moved
  simp only [sleepersAfter, positive, if_false, Prod.mk.injEq] at sleepers
  obtain ⟨asleep, ticks⟩ := sleepers
  obtain ⟨_, _, here⟩ := inv.machine.runs enabled
  have other (t : Nat) (member : t ∈ q.members .asleep) : t ≠ s.machine.kernel.runPt cpu := by
    rintro rfl
    rw [inv.machine.base.rep.listed.members _ _ (by simp), here] at member
    cases member
  refine ⟨q', machine_inv, ?_, ?_, ?_, inv.wakes⟩
  · intro t member
    rw [asleep, mem_insertByKey] at member
    rw [ticks]
    rcases member with rfl | old
    · simp only [Function.update_self, tickAfter_eq]
    · simp only [Function.update_of_ne (other t old)]
      exact inv.ticks t old
  · intro t member
    rw [asleep, mem_insertByKey] at member
    rcases member with rfl | old
    · simp only [Function.update_self]
      omega
    · have near := inv.near t old
      simp only [Function.update_of_ne (other t old)]
      omega
  · intro _
    simp only [perform, positive, if_false] at performed
    obtain ⟨k, slept, suspended⟩ := Option.bind_eq_some_iff.mp performed
    obtain ⟨alarm, root⟩ := Prod.mk.inj (suspend_alarm suspended)
    rcases sleep_alarm slept with ⟨head, set⟩ | ⟨head, occupied, kept⟩
    · have near : now + 1000 * sleepTime < now + 2 ^ 32 := by omega
      -- the caller is the new head, and the alarm is its tick
      refine ⟨by simp [root, head], ?_⟩
      intro fire after reached
      simp only [root, head, alarm, set, tickAfter_eq, Function.update_self] at reached ⊢
      exact lowBits_reached near after reached
    · obtain ⟨same_alarm, same_root⟩ := Prod.mk.inj kept
      -- the head stays, and so does the alarm
      have before := inv.alarm occupied
      have not_caller : s.machine.kernel.sleepScheduleRoot ≠ s.machine.kernel.runPt cpu :=
        same_root ▸ head
      refine ⟨by simp [before.armed], ?_⟩
      intro fire after reached
      simp only [root, same_root, alarm, same_alarm, Function.update_of_ne not_caller] at reached ⊢
      exact before.fires fire (later.trans after) reached

theorem inv_sleep (inv : Inv layout s q) {cpu : Core} {now sleepTime : Nat} {times : Readings}
    (stepped : step layout s (.call (.sleep cpu now sleepTime times)) = some s') :
    ∃ q', Inv layout s' q' := by
  simp only [step] at stepped
  split at stepped
  next timely =>
    obtain ⟨later, short⟩ := timely
    obtain ⟨machine, moved, rfl⟩ := Option.map_eq_some_iff.mp stepped
    by_cases nothing : sleepTime = 0
    · obtain ⟨_, _, performed⟩ := step_enabled moved
      obtain rfl : s.machine = machine := by simpa [perform, nothing] using performed
      refine ⟨q, inv.machine, ?_, ?_, ?_, inv.wakes⟩
      · simpa only [nothing, if_true] using inv.ticks
      · intro t member
        have near := inv.near t member
        simp only [nothing, if_true]
        omega
      · intro occupied
        simpa [nothing] using (inv.alarm occupied).wait later
    · simpa [nothing] using inv_sleep_on inv later short nothing moved
  next => cases stepped

omit [DecidableEq Sem] in
theorem unsleep_alarm (k : Kernel Sem) (first second : Nat)
    (occupied : k.sleepScheduleRoot ≠ null) :
    alarmOf (unsleep k first second) =
      (rearm k (k.nextTcb k.sleepScheduleRoot) first second, k.nextTcb k.sleepScheduleRoot) := by
  simp only [unsleep, if_neg occupied, alarmOf, enqueueThread_sleepers]

theorem inv_alarm (inv : Inv layout s q) {fire first second : Nat}
    (soon : Soon s (.alarm fire first second))
    (stepped : step layout s (.alarm fire first second) = some s') : ∃ q', Inv layout s' q' := by
  simp only [step] at stepped
  split at stepped
  next timely =>
    obtain ⟨armed, reached, waited, read, again⟩ := timely
    obtain ⟨machine, moved, rfl⟩ := Option.map_eq_some_iff.mp stepped
    obtain ⟨_, enabled, performed⟩ := step_enabled moved
    have guarded : Serialized.Guard layout s.machine (.unsleep first second) := trivial
    obtain ⟨q', machine_inv, sleepers⟩ := Serialized.inv_step inv.machine guarded moved
    obtain ⟨asleep, ticks⟩ := Prod.mk.inj sleepers
    obtain rfl : _ = machine := Option.some.inj performed
    have tail (t : Nat) (member : t ∈ q'.members .asleep) : t ∈ q.members .asleep := by
      rw [asleep] at member
      exact List.mem_of_mem_tail member
    have near (t : Nat) (member : t ∈ q'.members .asleep) : s.deadline t < second + 2 ^ 32 := by
      have before := inv.near t (tail t member)
      omega
    refine ⟨q', machine_inv, fun t member => ?_, near, ?_, ?_⟩
    · rw [ticks]
      exact inv.ticks t (tail t member)
    · intro left
      refine ⟨by simpa using left, ?_⟩
      have occupied : s.machine.kernel.sleepScheduleRoot ≠ null := by
        intro empty
        simp only [unsleep, empty, if_true] at left
        exact absurd rfl left
      have listed := (sleepers_chain machine_inv).root_mem left
      obtain ⟨alarm, root⟩ := Prod.mk.inj (unsleep_alarm s.machine.kernel first second occupied)
      simp only [root, alarm] at left listed ⊢
      intro after later fired
      -- `unsleep` sets an alarm for a sleeper that is due within 10 us to 10 us from now
      by_cases near_by : s.machine.kernel.resumeTick
          (s.machine.kernel.nextTcb s.machine.kernel.sleepScheduleRoot) <
            (first % 2 ^ 64 + 10) % 2 ^ 64
      · rw [rearm_soon left near_by] at fired
        have close : second + 10 < second + 2 ^ 32 := by omega
        exact (soon occupied left near_by).trans (lowBits_reached close later fired)
      · rw [rearm_later left near_by, inv.ticks _ (tail _ listed)] at fired
        exact lowBits_reached (near _ listed) later fired
    · intro wake member
      simp only [wakesAfter] at member
      split at member
      next => exact inv.wakes wake member
      next occupied =>
        rcases List.mem_cons.mp member with rfl | old
        · exact ((inv.alarm occupied).fires fire waited reached).trans (read.trans again)
        · exact inv.wakes wake old
  next => cases stepped

theorem inv_other (inv : Inv layout s q) {call : Call Sem} {machine : Machine Sem}
    (moved : Serialized.step layout s.machine call = some machine)
    (guarded : Serialized.Guard layout s.machine call)
    (other : ∀ cpu now sleepTime times, call ≠ .sleep cpu now sleepTime times)
    (not_woken : ∀ first second, call ≠ .unsleep first second) :
    ∃ q', Inv layout { s with machine } q' := by
  obtain ⟨_, _, performed⟩ := step_enabled moved
  obtain ⟨q', machine_inv, sleepers⟩ := Serialized.inv_step inv.machine guarded moved
  obtain ⟨alarm, root⟩ := Prod.mk.inj (perform_alarm performed other not_woken)
  have kept : sleepersAfter s.machine.kernel q call =
      (q.members .asleep, s.machine.kernel.resumeTick) := by
    cases call with
    | sleep cpu now sleepTime times => exact absurd rfl (other cpu now sleepTime times)
    | unsleep first second => exact absurd rfl (not_woken first second)
    | initScheduler cpu | addThread stackSize priority | schedule cpu times
    | schedBlock cpu sem times | schedUnblock cpu sem | kill cpu freeStack freeTcb last => rfl
  obtain ⟨asleep, ticks⟩ := Prod.mk.inj (sleepers.trans kept)
  refine ⟨q', machine_inv, ?_, ?_, ?_, inv.wakes⟩
  · rw [asleep, ticks]
    exact inv.ticks
  · rw [asleep]
    exact inv.near
  · rw [root]
    intro occupied
    have set := inv.alarm occupied
    refine ⟨set.armed, ?_⟩
    rw [alarm, root]
    exact set.fires

theorem inv_step (inv : Inv layout s q) {event : Event Sem} (guarded : Guard layout s event)
    (stepped : step layout s event = some s') : ∃ q', Inv layout s' q' := by
  cases event with
  | alarm fire first second => exact inv_alarm inv guarded.2 stepped
  | call call =>
      cases call with
      | sleep cpu now sleepTime times => exact inv_sleep inv stepped
      | unsleep first second => exact nomatch stepped
      | initScheduler cpu | addThread stackSize priority | schedule cpu times
      | schedBlock cpu sem times | schedUnblock cpu sem | kill cpu freeStack freeTcb last =>
          obtain ⟨machine, moved, rfl⟩ := Option.map_eq_some_iff.mp stepped
          exact inv_other inv moved guarded.1 (by simp) (by simp)

theorem run_inv (reached : Reaches (step layout) (Guard layout) (Start layout) s) :
    ∃ q, Inv layout s q := by
  apply reached.invariant (fun s => ∃ q, Inv layout s q)
  · intro s begun
    refine ⟨noQueues, powerOn_inv begun.machine, nofun, nofun, ?_, ?_⟩
    · exact fun occupied => absurd begun.machine.sleepers occupied
    · simp [NeverEarly, begun.wakes]
  · rintro before event after ⟨q, inv⟩ guarded stepped
    exact inv_step inv guarded stepped

/-- Along every run whose alarms take the branch for a thread that will resume
soon only when it will, no thread is put back before its deadline. -/
theorem never_early_along_runs
    (reached : Reaches (step layout) (Guard layout) (Start layout) s) : NeverEarly s := by
  obtain ⟨q, inv⟩ := run_inv reached
  exact inv.wakes

/-! Two threads, one on each core -/

def clockAt (clock : Nat) : Alarmed Unit := ⟨⟨reset, clock, fun _ => 0⟩, false, []⟩

def sleepsAndAlarms (clock second : Nat) : List (Event Unit) :=
  twoThreads.map .call ++
    [.call (.sleep .cpu0 clock 1 readings), .call (.sleep .cpu1 clock 1000 readings),
      .alarm (clock + 1000) (clock + 1000) (clock + 1000), .alarm second second second]

theorem clockAt_start (clock : Nat) : Start board (clockAt clock) := ⟨reset_powerOn, rfl⟩

theorem never_early_along_runs_board :
    ∃ s, exec (step board) (clockAt 5000) (sleepsAndAlarms 5000 1005000) = some s ∧
      s.wakes.length = 2 ∧ NeverEarly s := by
  obtain ⟨s, executed, two⟩ : ∃ s ∈ exec (step board) (clockAt 5000) (sleepsAndAlarms 5000 1005000),
      s.wakes.length = 2 := by
    decide +kernel
  have allowed : Allowed (step board) (Guard board) (clockAt 5000) (sleepsAndAlarms 5000 1005000) := by
    decide +kernel
  exact ⟨s, executed, two,
    never_early_along_runs (exec_reaches _ (.start (clockAt_start 5000)) allowed executed)⟩

/-- With the clock past `2 ^ 32` the tick of the second sleeper is below every
clock value, so the alarm is set 10 us ahead. -/
theorem woken_a_second_early :
    ∃ s, Reaches (step board) Transition.free (Start board) s ∧ ¬ NeverEarly s := by
  obtain ⟨s, executed, wake, member, early⟩ :
      ∃ s ∈ exec (step board) (clockAt (2 ^ 32)) (sleepsAndAlarms (2 ^ 32) (2 ^ 32 + 1010)),
        ∃ wake ∈ s.wakes, wake.clock + 998990 = wake.deadline := by
    decide +kernel
  refine ⟨s, exec_reaches _ (.start (clockAt_start _)) (allowed_free _ _ _) executed, ?_⟩
  intro never
  have due := never wake member
  omega

end MulticoreRtos.SleepAlarm
