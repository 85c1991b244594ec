import MulticoreRtos.StableQueue
import MulticoreRtos.SleepAlarm

/-!
The sleep queue and its alarm. The arrivals are history: the sleeping threads in
the order of their calls of `sleep`. `turned` is the last call that gave the
queue another head. The clock may give any readings.
-/

namespace MulticoreRtos.SleepCoverage

open Scheduler Serialized Transition LinkedList StableQueue
open SleepAlarm (perform_alarm suspend_alarm sleep_alarm unsleep_alarm rearm_soon rearm_later)
open SleepQueue (lowBits)
open Heap (null)

structure Sleepers (Sem : Type) where
  machine : Machine Sem
  arrivals : List Nat
  turned : Option (Call Sem)

variable {Sem : Type} [DecidableEq Sem] {layout : Layout Sem} {s s' : Sleepers Sem}
  {q : Queues Sem}

def arrivalsAfter (s : Sleepers Sem) : Call Sem → List Nat
  | .sleep cpu _ sleepTime _ =>
      if sleepTime = 0 then s.arrivals else s.arrivals ++ [s.machine.kernel.runPt cpu]
  | .unsleep _ _ => s.arrivals.filter (· ≠ s.machine.kernel.sleepScheduleRoot)
  | _ => s.arrivals

def turnedAfter (s : Sleepers Sem) (machine : Machine Sem) (call : Call Sem) :
    Option (Call Sem) :=
  if machine.kernel.sleepScheduleRoot = s.machine.kernel.sleepScheduleRoot then s.turned
  else some call

def step (layout : Layout Sem) (s : Sleepers Sem) (call : Call Sem) : Option (Sleepers Sem) :=
  (Serialized.step layout s.machine call).map fun machine =>
    { machine, arrivals := arrivalsAfter s call, turned := turnedAfter s machine call }

def Guard (layout : Layout Sem) (s : Sleepers Sem) (call : Call Sem) : Prop :=
  Serialized.Guard layout s.machine call

instance (layout : Layout Sem) (s : Sleepers Sem) (call : Call Sem) :
    Decidable (Guard layout s call) :=
  inferInstanceAs (Decidable (Serialized.Guard _ _ _))

structure Start (layout : Layout Sem) (s : Sleepers Sem) : Prop where
  machine : PowerOn layout s.machine
  arrivals : s.arrivals = []

/-! What holds -/

structure ListOk (s : Sleepers Sem) : Prop where
  queue : ∃ nodes, Chain null s.machine.kernel.nextTcb s.machine.kernel.sleepScheduleRoot nodes ∧
    Stable s.machine.kernel.resumeTick s.arrivals nodes
  sleeping : ∀ t, t ∈ s.arrivals ↔ t ∈ s.machine.live ∧ s.machine.kernel.state t = .sleeping

/-- `unsleep` takes the first thread and puts it in front of its ring; no other
thread moves. -/
structure MovesFirst (s s' : Sleepers Sem) (t : Nat) (rest : List Nat) : Prop where
  before : Chain null s.machine.kernel.nextTcb s.machine.kernel.sleepScheduleRoot (t :: rest)
  after : Chain null s'.machine.kernel.nextTcb s'.machine.kernel.sleepScheduleRoot rest
  state : s'.machine.kernel.state = Function.update s.machine.kernel.state t .active
  rings : ∀ p, ∃ nodes,
    Ring null s.machine.kernel.nextTcb s.machine.kernel.prevTcb
      (s.machine.kernel.threadSchedule p) nodes ∧
    Ring null s'.machine.kernel.nextTcb s'.machine.kernel.prevTcb
      (s'.machine.kernel.threadSchedule p)
      (if p = s.machine.kernel.priority t then t :: nodes else nodes)

/-- The alarm is set to the tick of the head, or to 10 us past a reading by the
`unsleep` that made it the head, which found its tick less than that away. -/
def Covered (s : Sleepers Sem) : Prop :=
  let k := s.machine.kernel
  k.sleepScheduleRoot ≠ null →
    k.alarm0 = k.resumeTick k.sleepScheduleRoot ∨
      ∃ first second, s.turned = some (.unsleep first second) ∧
        k.resumeTick k.sleepScheduleRoot < (first % 2 ^ 64 + 10) % 2 ^ 64 ∧
        k.alarm0 = lowBits (second + 10)

structure SleepOk (layout : Layout Sem) (s : Sleepers Sem) : Prop where
  list : ListOk s
  completes : ∀ call, s.machine.kernel.schedulerHeld = false → Enabled layout s.machine call →
    Guard layout s call → ∃ s', step layout s call = some s'
  unsleeps : ∀ first second s', step layout s (.unsleep first second) = some s' →
    s.machine.kernel.sleepScheduleRoot = null ∧ s'.machine = s.machine ∨
      ∃ t rest, MovesFirst s s' t rest
  covered : Covered s

/-! The list -/

structure Inv (layout : Layout Sem) (s : Sleepers Sem) (q : Queues Sem) : Prop where
  machine : Serialized.Inv layout s.machine q
  stable : Stable s.machine.kernel.resumeTick s.arrivals (q.members .asleep)
  covered : Covered s

variable {m : Machine Sem}

omit [DecidableEq Sem] in
theorem sleepers_chain (inv : Serialized.Inv layout m q) :
    Chain null m.kernel.nextTcb m.kernel.sleepScheduleRoot (q.members .asleep) :=
  inv.base.rep.joined .asleep

omit [DecidableEq Sem] in
theorem caller_awake (inv : Serialized.Inv layout m q) {cpu : Core} (busy : NonIdle m.kernel cpu) :
    m.kernel.runPt cpu ∉ q.members .asleep := by
  rw [inv.base.rep.listed.members _ _ (by simp), (inv.runs busy).2.2]
  simp

omit [DecidableEq Sem] in
theorem stable_step (inv : Inv layout s q) {call : Call Sem}
    (enabled : Enabled layout s.machine call) :
    Stable (sleepersAfter s.machine.kernel q call).2 (arrivalsAfter s call)
      (sleepersAfter s.machine.kernel q call).1 := by
  cases call with
  | sleep cpu now sleepTime times =>
      by_cases nothing : sleepTime = 0
      · simpa only [sleepersAfter, arrivalsAfter, nothing, if_true] using inv.stable
      · simp only [sleepersAfter, arrivalsAfter, nothing, if_false]
        have awake := caller_awake inv.machine enabled
        refine (inv.stable.congr fun t member => Function.update_of_ne ?_ _ _).insert awake
        rintro rfl
        exact awake member
  | unsleep first second =>
      have chain := sleepers_chain inv.machine
      have stable := inv.stable
      simp only [sleepersAfter, arrivalsAfter]
      cases nodes : q.members .asleep with
      | nil =>
          rw [nodes] at stable
          have nobody : s.arrivals = [] := by
            rw [List.eq_nil_iff_forall_not_mem]
            intro t arrived
            simpa using (stable.mem_iff t).mpr arrived
          rw [nobody]
          exact Stable.nil
      | cons t rest =>
          rw [nodes] at stable chain
          rw [chain.1]
          exact stable.pop
  | initScheduler cpu | addThread stackSize priority | schedule cpu times
  | schedBlock cpu sem times | schedUnblock cpu sem | kill cpu freeStack freeTcb last =>
      exact inv.stable

/-! The alarm -/

omit [DecidableEq Sem] in
theorem Covered.keep (covered : Covered s) {machine : Machine Sem} {call : Call Sem}
    {arrivals : List Nat}
    (root : machine.kernel.sleepScheduleRoot = s.machine.kernel.sleepScheduleRoot)
    (alarm : machine.kernel.alarm0 = s.machine.kernel.alarm0)
    (tick : machine.kernel.resumeTick s.machine.kernel.sleepScheduleRoot =
      s.machine.kernel.resumeTick s.machine.kernel.sleepScheduleRoot) :
    Covered ⟨machine, arrivals, turnedAfter s machine call⟩ := by
  intro occupied
  simp only [root] at occupied
  simp only [turnedAfter, root, if_true, alarm, tick]
  exact covered occupied

theorem covered_sleep (inv : Inv layout s q) {cpu : Core} {now sleepTime : Nat} {times : Readings}
    {machine : Machine Sem}
    (performed : perform layout s.machine (.sleep cpu now sleepTime times) = some machine)
    (ticks : machine.kernel.resumeTick =
      (sleepersAfter s.machine.kernel q (.sleep cpu now sleepTime times)).2) {arrivals : List Nat} :
    Covered ⟨machine, arrivals, turnedAfter s machine (.sleep cpu now sleepTime times)⟩ := by
  by_cases nothing : sleepTime = 0
  · obtain rfl : s.machine = machine := by simpa [perform, nothing] using performed
    exact inv.covered.keep rfl rfl rfl
  · simp only [sleepersAfter, nothing, if_false] at ticks
    simp only [perform, nothing, if_false] at performed
    obtain ⟨k, slept, suspended⟩ := Option.bind_eq_some_iff.mp performed
    obtain ⟨alarm, root⟩ := Prod.mk.inj (suspend_alarm suspended)
    rcases sleep_alarm slept with ⟨head, set⟩ | ⟨head, _, kept⟩
    · intro _
      left
      simp only [alarm, root, ticks, head, set, Function.update_self]
    · obtain ⟨same_alarm, same_root⟩ := Prod.mk.inj kept
      refine inv.covered.keep (root.trans same_root) (alarm.trans same_alarm) ?_
      rw [ticks, Function.update_of_ne (same_root ▸ head)]

omit [DecidableEq Sem] in
/-- The thread behind the head is another one. -/
theorem next_turns (inv : Inv layout s q) (occupied : s.machine.kernel.sleepScheduleRoot ≠ null) :
    s.machine.kernel.nextTcb s.machine.kernel.sleepScheduleRoot ≠
      s.machine.kernel.sleepScheduleRoot := by
  have chain := sleepers_chain inv.machine
  have once := inv.stable.once
  cases nodes : q.members .asleep with
  | nil => exact absurd (chain.null_iff.mpr nodes) occupied
  | cons t rest =>
      rw [nodes] at chain once
      obtain ⟨root, _, tail⟩ := chain
      rw [root] at occupied ⊢
      intro same
      rw [same] at tail
      exact (List.nodup_cons.mp once).1 (tail.root_mem occupied)

theorem covered_unsleep (inv : Inv layout s q) {first second : Nat} {machine : Machine Sem}
    (performed : perform layout s.machine (.unsleep first second) = some machine)
    (ticks : machine.kernel.resumeTick = s.machine.kernel.resumeTick) {arrivals : List Nat} :
    Covered ⟨machine, arrivals, turnedAfter s machine (.unsleep first second)⟩ := by
  have moved : { s.machine with kernel := unsleep s.machine.kernel first second } = machine :=
    Option.some.inj performed
  have kernel : machine.kernel = unsleep s.machine.kernel first second := by rw [← moved]
  by_cases empty : s.machine.kernel.sleepScheduleRoot = null
  · rw [unsleep, if_pos empty] at kernel
    apply inv.covered.keep <;> rw [kernel]
  · obtain ⟨alarm, root⟩ := Prod.mk.inj (unsleep_alarm s.machine.kernel first second empty)
    rw [← kernel] at alarm root
    intro occupied
    simp only [root] at occupied
    simp only [turnedAfter, alarm, root, ticks, next_turns inv empty, if_false]
    by_cases soon : s.machine.kernel.resumeTick
        (s.machine.kernel.nextTcb s.machine.kernel.sleepScheduleRoot) < (first % 2 ^ 64 + 10) % 2 ^ 64
    · right
      exact ⟨first, second, rfl, soon, rearm_soon occupied soon⟩
    · left
      exact rearm_later occupied soon

theorem inv_step (inv : Inv layout s q) {call : Call Sem} (guarded : Guard layout s call)
    (stepped : step layout s call = some s') : ∃ q', Inv layout s' q' := by
  obtain ⟨machine, moved, rfl⟩ := Option.map_eq_some_iff.mp stepped
  obtain ⟨_, enabled, performed⟩ := step_enabled moved
  obtain ⟨q', machine_inv, sleepers⟩ := Serialized.inv_step inv.machine guarded moved
  have stable := stable_step inv enabled
  rw [← sleepers] at stable
  refine ⟨q', machine_inv, stable, ?_⟩
  have ticks : machine.kernel.resumeTick = (sleepersAfter s.machine.kernel q call).2 := by
    rw [← sleepers]
  cases call with
  | sleep cpu now sleepTime times => exact covered_sleep inv performed ticks
  | unsleep first second => exact covered_unsleep inv performed ticks
  | initScheduler cpu | addThread stackSize priority | schedule cpu times
  | schedBlock cpu sem times | schedUnblock cpu sem | kill cpu freeStack freeTcb last =>
      obtain ⟨alarm, root⟩ := Prod.mk.inj (perform_alarm performed (by simp) (by simp))
      exact inv.covered.keep root alarm (congrFun ticks _)

theorem run_inv (reached : Reaches (step layout) (Guard layout) (Start layout) s) :
    ∃ q, Inv layout s q := by
  apply reached.invariant (fun s => ∃ q, Inv layout s q)
  · intro s begun
    refine ⟨noQueues, powerOn_inv begun.machine, ?_, ?_⟩
    · rw [begun.arrivals]
      exact Stable.nil
    · exact fun occupied => absurd begun.machine.sleepers occupied
  · rintro before call after ⟨q, inv⟩ guarded stepped
    exact inv_step inv guarded stepped

omit [DecidableEq Sem] in
theorem listOk (inv : Inv layout s q) : ListOk s := by
  refine ⟨⟨_, sleepers_chain inv.machine, inv.stable⟩, fun t => ?_⟩
  rw [← inv.stable.mem_iff, inv.machine.base.rep.listed.members t _ (by simp),
    inv.machine.base.live]
  have fits := inv.machine.base.rep.stated t
  cases here : q.place t with
  | gone => simp
  | ready p =>
      rw [here] at fits
      obtain ⟨_, _, ready, _⟩ := fits
      rcases ready with runs | waits <;> simp [*]
  | asleep =>
      rw [here] at fits
      simp [fits.2]
  | waiting other =>
      rw [here] at fits
      simp [fits.2]

theorem movesFirst (inv : Inv layout s q) {first second : Nat}
    (stepped : step layout s (.unsleep first second) = some s') :
    s.machine.kernel.sleepScheduleRoot = null ∧ s'.machine = s.machine ∨
      ∃ t rest, MovesFirst s s' t rest := by
  obtain ⟨machine, moved, rfl⟩ := Option.map_eq_some_iff.mp stepped
  obtain ⟨_, _, performed⟩ := step_enabled moved
  obtain rfl : { s.machine with kernel := unsleep s.machine.kernel first second } = machine :=
    Option.some.inj performed
  have chain := sleepers_chain inv.machine
  rcases unsleep_inv inv.machine first second with ⟨nodes, unchanged⟩ | ⟨t, rest, nodes, here,
    shared, _, after⟩
  · exact Or.inl ⟨chain.null_iff.mpr nodes, by simp only [unchanged]⟩
  · refine Or.inr ⟨t, rest, by rwa [nodes] at chain, ?_, ?_, fun p => ?_⟩
    · have left := sleepers_chain after
      rwa [wake_members here (by simp) _ (by simp), if_pos rfl] at left
    · simp only [shared, enqueueThread_state]
    · refine ⟨q.members (.ready p), inv.machine.base.rep.joined (.ready p), ?_⟩
      have joined := after.base.rep.joined (.ready p)
      rwa [wake_ready here (by simp)] at joined

/-- Along every run of guarded calls the sleep queue is a stable priority queue
of the sleeping threads, `unsleep` moves its first one, and the alarm is set for
the head. -/
theorem sleep_queue_along_runs
    (reached : Reaches (step layout) (Guard layout) (Start layout) s) : SleepOk layout s := by
  obtain ⟨q, inv⟩ := run_inv reached
  constructor
  · exact listOk inv
  · intro call unlocked enabled guarded
    obtain ⟨m', _, performed, _⟩ := call_completes inv.machine enabled guarded
    refine ⟨⟨m', arrivalsAfter s call, turnedAfter s m' call⟩, ?_⟩
    simp [step, Serialized.step, unlocked, enabled, performed]
  · exact fun first second s' stepped => movesFirst inv stepped
  · exact inv.covered

def awake : Sleepers Unit := ⟨reset, [], none⟩

def equalTicks : List (Call Unit) :=
  SleepQueue.twoThreads ++
    [.sleep .cpu0 5000 1 readings, .sleep .cpu1 5000 1 readings, .unsleep 6000 6002]

theorem sleep_queue_along_runs_board :
    ∃ s, exec (step board) awake equalTicks = some s ∧ s.arrivals.length = 1 ∧
      s.machine.kernel.alarm0 = 6012 ∧ SleepOk board s := by
  obtain ⟨s, executed, one, alarm⟩ : ∃ s ∈ exec (step board) awake equalTicks,
      s.arrivals.length = 1 ∧ s.machine.kernel.alarm0 = 6012 := by
    decide +kernel
  have allowed : Allowed (step board) (Guard board) awake equalTicks := by decide +kernel
  exact ⟨s, executed, one, alarm,
    sleep_queue_along_runs (exec_reaches _ (.start ⟨reset_powerOn, rfl⟩) allowed executed)⟩

end MulticoreRtos.SleepCoverage
