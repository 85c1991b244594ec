import MulticoreRtos.RoundRobin

/-!
Which thread runs after a signal. `sched_unblock` answers whether the woken
thread's priority number is not below the signaller's, and a lower number is a
higher priority: a signal calls `schedule()` for threads that may wait and
returns without it when the woken thread is the more urgent one.
-/

namespace MulticoreRtos.Serialized

open Scheduler Transition LinkedList
open Heap (null)

variable {Sem : Type} [DecidableEq Sem] {layout : Layout Sem} {m m' : Machine Sem} {q : Queues Sem}

/-- `c_signal` from its test of `bthreads_root` on. -/
def cSignal (m : Machine Sem) (cpu : Core) (sem : Sem) (times : Readings) : Option (Machine Sem) :=
  bSignal m cpu sem times

inductive SignalCall where
  | bSignal
  | cSignal

def signal : SignalCall → Machine Sem → Core → Sem → Readings → Option (Machine Sem)
  | .bSignal => bSignal
  | .cSignal => cSignal

/-- A signal on core `cpu` that wakes `thread` leads from `m` to `m'`: a more urgent
thread makes the core call `schedule()`, which selects it or one as urgent unless
the other core has it, and a less urgent one does not cost the signaller its core. -/
structure PreemptsRightly (m m' : Machine Sem) (cpu : Core) (thread : Nat) : Prop where
  urgent : m.kernel.priority thread < m.kernel.priority (m.kernel.runPt cpu) →
    m'.kernel.pendSv cpu = true ∧
      (m'.kernel.priority (m'.kernel.nextRunPt cpu) ≤ m.kernel.priority thread ∨
        m'.kernel.runPt cpu.other = thread)
  patient : m.kernel.priority (m.kernel.runPt cpu) < m.kernel.priority thread →
    m'.kernel.pendSv cpu = true → m'.kernel.nextRunPt cpu = m.kernel.runPt cpu

/-- The selection from the signaller's own ring comes round to the signaller. -/
def NextInTurn (k : Kernel Sem) (cpu : Core) : Prop :=
  let root := k.threadSchedule (k.priority (k.runPt cpu))
  root = k.runPt cpu ∨ (root = k.runPt cpu.other ∧ k.nextTcb root = k.runPt cpu)

/-- The woken thread is as urgent as the signaller, or it is less urgent and
`schedule()` would select the signaller again. -/
def KeepsSignaller (m : Machine Sem) (cpu : Core) (thread : Nat) : Prop :=
  m.kernel.priority thread = m.kernel.priority (m.kernel.runPt cpu) ∨
    (m.kernel.priority (m.kernel.runPt cpu) < m.kernel.priority thread ∧
      (∀ t ∈ m.live, m.kernel.state t = .active →
        m.kernel.priority (m.kernel.runPt cpu) ≤ m.kernel.priority t) ∧
      NextInTurn m.kernel cpu)

instance (k : Kernel Sem) (cpu : Core) : Decidable (NextInTurn k cpu) :=
  inferInstanceAs (Decidable (_ ∨ _))

instance (m : Machine Sem) (cpu : Core) (thread : Nat) : Decidable (KeepsSignaller m cpu thread) :=
  inferInstanceAs (Decidable (_ ∨ _))

section Wake
variable {c : Core} {t p : Nat} {rest : List Nat} {spot : Place Sem}

theorem wake_level (here : q.place t = spot) (away : ∀ r, spot ≠ .ready r) {r : Nat}
    (other : r ≠ p) : (q.wake t p rest).members (.ready r) = q.members (.ready r) := by
  have left : (q.leave t rest).members (.ready r) = q.members (.ready r) :=
    Function.update_of_ne (by rw [here]; exact (away r).symm) _ _
  exact (Function.update_of_ne (by simpa using other) _ _).trans left

structure Woken (layout : Layout Sem) (m woken : Machine Sem) (q q' : Queues Sem) (c : Core)
    (thread : Nat) : Prop where
  inv : Inv layout woken q'
  cores : woken.kernel.runPt = m.kernel.runPt
  switched : woken.kernel.pendSv = m.kernel.pendSv
  live : woken.live = m.live
  priority : woken.kernel.priority = m.kernel.priority
  state : woken.kernel.state = Function.update m.kernel.state thread .active
  level : ∀ r, r ≠ m.kernel.priority thread → q'.members (.ready r) = q.members (.ready r)

theorem signal_wakes (inv : Inv layout m q) (call : SignalCall) (sem : Sem) (times : Readings)
    (waits : m.kernel.bthreadsRoot sem ≠ null) :
    ∃ woken q', Woken layout m woken q q' c (m.kernel.bthreadsRoot sem) ∧
      signal call m c sem times =
        if m.kernel.priority (m.kernel.runPt c) ≤ m.kernel.priority (m.kernel.bthreadsRoot sem)
        then runSchedule woken c times else some woken := by
  obtain ⟨t, rest, nodes, root, here⟩ := waiters_cons inv.base.rep waits
  obtain ⟨answer, moved⟩ := schedUnblock_moved inv.base.rep c nodes
  obtain ⟨woken, q', performed, inv', _⟩ := schedUnblock_completes inv c waits
  have result : perform layout m (.schedUnblock c sem) =
      some { m with kernel := { m.kernel with toShared := unblockShared m.kernel.toShared sem } } := by
    simp only [perform, answer]
    rfl
  obtain rfl := Option.some.inj (result.symm.trans performed)
  have body : bSignal m c sem times =
      if m.kernel.priority (m.kernel.runPt c) ≤ m.kernel.priority t
      then runSchedule { m with kernel := { m.kernel with
        toShared := unblockShared m.kernel.toShared sem } } c times
      else some { m with kernel := { m.kernel with
        toShared := unblockShared m.kernel.toShared sem } } := by
    rw [bSignal, if_neg waits, answer]
    simp
  refine ⟨_, q', ⟨inv', rfl, rfl, rfl, moved.priority, ?_, ?_⟩, ?_⟩
  · simp only [unblockShared, enqueueThread_state]
  · intro r other
    rw [root] at other
    have before : Ring null _ _ _ ((q.wake t (m.kernel.priority t) rest).members (.ready r)) :=
      moved.rep.joined (.ready r)
    have after : Ring null _ _ _ (q'.members (.ready r)) := inv'.base.rep.joined (.ready r)
    rw [← wake_level here (by simp) other]
    exact after.unique before (inv'.base.rep.listed.distinct _) (moved.rep.listed.distinct _)
  · rw [root]
    cases call with
    | bSignal => exact body
    | cSignal => exact body

end Wake

section Choice
variable {c : Core}

omit [DecidableEq Sem] in
theorem turn_chooses {next prev : Nat → Nat} {root held chosen x : Nat} {nodes after : List Nat}
    (ring : Ring null next prev root nodes) (turned : Rotation.turn held nodes = some (chosen, after))
    (free : x ≠ held) : chosen = x ↔ root = x ∨ (root = held ∧ next root = x) := by
  cases nodes with
  | nil => cases turned
  | cons first rest =>
      obtain rfl : root = first := ring.1
      by_cases back : root = held
      · rw [Rotation.turn, if_pos back] at turned
        obtain ⟨second, behind, same⟩ := Option.map_eq_some_iff.mp turned
        obtain rfl := (Prod.mk.inj same).1
        cases rest with
        | nil => cases behind
        | cons y more =>
            obtain rfl : y = second := Option.some.inj behind
            rw [ring.next_root]
            exact ⟨fun same => Or.inr ⟨back, same⟩,
              fun either => either.elim (fun same => absurd (same.symm.trans back) free) And.right⟩
      · rw [Rotation.turn, if_neg back] at turned
        obtain rfl := (Prod.mk.inj (Option.some.inj turned)).1
        exact ⟨Or.inl, fun either => either.elim id fun held_root => absurd held_root.1 back⟩

omit [DecidableEq Sem] in
theorem signaller_busy (inv : Inv layout m q) (started : m.kernel.runPt c ≠ null) {thread : Nat}
    (live : q.place thread ≠ .gone)
    (patient : m.kernel.priority (m.kernel.runPt c) < m.kernel.priority thread) :
    NonIdle m.kernel c := by
  refine ⟨started, fun resting => ?_⟩
  have idle := (inv.base.idle c (inv.started started).1).priority
  have bounded := (inv.base.rep.stated thread).bounded live
  rw [← resting] at idle
  rw [idle] at patient
  exact absurd bounded (Nat.not_lt.mpr patient.le)

omit [DecidableEq Sem] in
theorem woken_top (inv : Inv layout m q) {woken : Machine Sem} {q' : Queues Sem} {thread : Nat}
    (wakes : Woken layout m woken q q' c thread) (busy : NonIdle m.kernel c)
    (patient : m.kernel.priority (m.kernel.runPt c) < m.kernel.priority thread)
    (nobody : ∀ t ∈ m.live, m.kernel.state t = .active →
      m.kernel.priority (m.kernel.runPt c) ≤ m.kernel.priority t) :
    TopLevel woken c (m.kernel.priority (m.kernel.runPt c)) := by
  obtain ⟨_, _, here⟩ := inv.runs busy
  constructor
  · refine ⟨m.kernel.runPt c, ?_, by rw [wakes.priority], Or.inr (by rw [wakes.cores])⟩
    rw [wakes.live, inv.base.live, here]
    simp
  · rintro r lower ⟨x, member, level, waits⟩
    rw [wakes.live] at member
    rw [wakes.priority] at level
    rw [wakes.state, wakes.cores] at waits
    rcases waits with active | mine
    · have other : x ≠ thread := by
        rintro rfl
        omega
      rw [Function.update_of_ne other] at active
      have above := nobody x member active
      omega
    · rw [← mine] at level
      omega

omit [DecidableEq Sem] in
/-- For a less urgent thread `schedule()` comes back to the signaller exactly if
nothing more urgent is active and the signaller's ring has it next in turn. -/
theorem chosen_iff (inv : Inv layout m q) (started : m.kernel.runPt c ≠ null)
    {woken : Machine Sem} {q' : Queues Sem} {thread : Nat} (live : q.place thread ≠ .gone)
    (wakes : Woken layout m woken q q' c thread)
    (patient : m.kernel.priority (m.kernel.runPt c) < m.kernel.priority thread) {times : Readings}
    {k' : Kernel Sem} (answer : schedule woken.kernel c times = some k')
    (choice : DispatchOk (q'.place · ≠ .gone) (settle woken.kernel c times.exitIdle) c
      (k'.nextRunPt c)) (priority : (settle woken.kernel c times.exitIdle).priority = m.kernel.priority) :
    k'.nextRunPt c = m.kernel.runPt c ↔
      (∀ t ∈ m.live, m.kernel.state t = .active →
        m.kernel.priority (m.kernel.runPt c) ≤ m.kernel.priority t) ∧ NextInTurn m.kernel c := by
  have busy := signaller_busy inv started live patient
  have started' : woken.kernel.runPt c ≠ null := by rwa [wakes.cores]
  have by_turn (nobody : ∀ t ∈ m.live, m.kernel.state t = .active →
      m.kernel.priority (m.kernel.runPt c) ≤ m.kernel.priority t) :
      k'.nextRunPt c = m.kernel.runPt c ↔ NextInTurn m.kernel c := by
    obtain ⟨after, selected⟩ := schedule_selects wakes.inv started'
      (woken_top inv wakes busy patient nobody) answer
    have turned := selected.turned
    rw [wakes.cores, wakes.level _ patient.ne] at turned
    refine turn_chooses (inv.base.rep.joined (.ready _)) turned fun same => ?_
    exact Core.other_ne c (inv.current_apart started same).symm
  constructor
  · intro chosen
    have nobody : ∀ t ∈ m.live, m.kernel.state t = .active →
        m.kernel.priority (m.kernel.runPt c) ≤ m.kernel.priority t := by
      intro t member active
      have t_live : q'.place t ≠ .gone := (wakes.inv.base.live t).mp (by rwa [wakes.live])
      have still : woken.kernel.state t = .active := by
        rw [wakes.state, Function.update_apply, active]
        exact ite_self _
      have settled : (settle woken.kernel c times.exitIdle).state t = .active :=
        (settled_active wakes.inv times.exitIdle t_live).mpr (Or.inl still)
      have best := (choice.choice ⟨t, t_live, settled⟩).2.2 t t_live settled
      rwa [chosen, priority] at best
    exact ⟨nobody, (by_turn nobody).mp chosen⟩
  · rintro ⟨nobody, next⟩
    exact (by_turn nobody).mpr next

end Choice

/-- In every reachable state a signal preempts as it should exactly when the woken
thread is as urgent as the signaller, or less urgent and the signaller is next in
turn anyway. -/
theorem signal_preempts_iff (reached : Reaches (step layout) (Guard layout) (PowerOn layout) m)
    (call : SignalCall) (cpu : Core) (sem : Sem) (times : Readings)
    (started : m.kernel.runPt cpu ≠ null) (waits : m.kernel.bthreadsRoot sem ≠ null) :
    ∃ m', signal call m cpu sem times = some m' ∧
      (PreemptsRightly m m' cpu (m.kernel.bthreadsRoot sem) ↔
        KeepsSignaller m cpu (m.kernel.bthreadsRoot sem)) := by
  obtain ⟨q, inv⟩ := run_inv reached
  obtain ⟨woken, q', wakes, outcome⟩ := signal_wakes (c := cpu) inv call sem times waits
  obtain ⟨t, _, _, root, here⟩ := waiters_cons inv.base.rep waits
  have live : q.place (m.kernel.bthreadsRoot sem) ≠ .gone := by simp [root, here]
  by_cases behind : m.kernel.priority (m.kernel.runPt cpu) ≤ m.kernel.priority (m.kernel.bthreadsRoot sem)
  · rw [if_pos behind] at outcome
    -- `sched_unblock` has asked for `schedule()`
    have started' : woken.kernel.runPt cpu ≠ null := by rwa [wakes.cores]
    have idle := (wakes.inv.started started').1
    obtain ⟨k', _, answer, scheduled, choice⟩ := schedule_spec times wakes.inv.base.rep
      (wakes.inv.own started') started' (by rw [wakes.inv.base.idleLevel cpu idle]; exact Nat.one_ne_zero)
    have pending : k'.pendSv cpu = true := by rw [scheduled.pending, Function.update_self]
    rw [runSchedule, answer, Option.map_some] at outcome
    refine ⟨_, outcome, ?_⟩
    rcases behind.eq_or_lt with equal | patient
    · exact ⟨fun _ => Or.inl equal.symm, fun _ => ⟨fun urgent => absurd equal urgent.ne',
        fun patient => absurd equal patient.ne⟩⟩
    · have priority := (settle_tasks times.exitIdle wakes.inv.base.rep (wakes.inv.own started')
        started').1.priority.trans wakes.priority
      have chosen := chosen_iff inv started live wakes patient answer choice priority
      constructor
      · intro right
        exact Or.inr ⟨patient, chosen.mp (right.patient patient pending)⟩
      · rintro (equal | ⟨_, keeps⟩)
        · exact absurd equal patient.ne'
        · exact ⟨fun urgent => absurd urgent patient.asymm, fun _ _ => chosen.mpr keeps⟩
  · rw [if_neg behind] at outcome
    -- the call returns without `schedule()`
    have urgent := Nat.lt_of_not_le behind
    have quiet : woken.kernel.pendSv cpu = false := by rw [wakes.switched, inv.base.switched]
    refine ⟨woken, outcome, ?_⟩
    constructor
    · intro right
      cases quiet.symm.trans (right.urgent urgent).1
    · rintro (equal | ⟨patient, _⟩)
      · exact absurd equal urgent.ne
      · exact absurd patient urgent.asymm

/-- A thread parks on core 1 and the more urgent thread of core 0 wakes it. -/
theorem signal_preempts_patient :
    ∃ m ∈ exec (step board) reset [.addThread 1024 1, .addThread 1024 3, .initScheduler .cpu0,
        .initScheduler .cpu1, .schedBlock .cpu1 () readings],
      ∃ m', signal .bSignal m .cpu0 () readings = some m' ∧
        PreemptsRightly m m' .cpu0 (m.kernel.bthreadsRoot ()) := by
  let run : List (Call Unit) := [.addThread 1024 1, .addThread 1024 3, .initScheduler .cpu0,
    .initScheduler .cpu1, .schedBlock .cpu1 () readings]
  obtain ⟨m, executed, started, waits, keeps⟩ : ∃ m ∈ exec (step board) reset run,
      m.kernel.runPt .cpu0 ≠ null ∧ m.kernel.bthreadsRoot () ≠ null ∧
        KeepsSignaller m .cpu0 (m.kernel.bthreadsRoot ()) := by
    decide +kernel
  have allowed : Allowed (step board) (Guard board) reset run := by decide +kernel
  have reached := exec_reaches run (.start reset_powerOn) allowed executed
  obtain ⟨m', answer, right⟩ := signal_preempts_iff reached .bSignal .cpu0 () readings started waits
  exact ⟨m, executed, m', answer, right.mpr keeps⟩

/-- The more urgent thread blocks and the other one of core 0 wakes it: no call of
`schedule()`. -/
theorem urgent_thread_waits :
    ∃ m m', Reaches (step board) (Guard board) (PowerOn board) m ∧
      m.kernel.bthreadsRoot () ≠ null ∧ signal .bSignal m .cpu0 () readings = some m' ∧
      ¬ PreemptsRightly m m' .cpu0 (m.kernel.bthreadsRoot ()) := by
  let run : List (Call Unit) := [.addThread 1024 3, .addThread 1024 1, .initScheduler .cpu0,
    .schedBlock .cpu0 () readings]
  obtain ⟨m, executed, waits, urgent, m', answer, quiet⟩ : ∃ m ∈ exec (step board) reset run,
      m.kernel.bthreadsRoot () ≠ null ∧
        m.kernel.priority (m.kernel.bthreadsRoot ()) < m.kernel.priority (m.kernel.runPt .cpu0) ∧
        ∃ m' ∈ signal .bSignal m .cpu0 () readings, m'.kernel.pendSv .cpu0 = false := by
    decide +kernel
  have allowed : Allowed (step board) (Guard board) reset run := by decide +kernel
  refine ⟨m, m', exec_reaches run (.start reset_powerOn) allowed executed, waits, answer, ?_⟩
  intro right
  cases quiet.symm.trans (right.urgent urgent).1

end MulticoreRtos.Serialized
