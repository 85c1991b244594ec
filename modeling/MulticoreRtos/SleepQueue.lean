import MulticoreRtos.SerializedRuns

/-!
The order of the sleep queue against true deadlines. The clock is an unbounded
count of microseconds and `resume_tick` keeps 32 bits of a deadline. The queue
is in the order of the deadlines as long as each new tick compares with the
stored ones as the deadlines do; a deadline across a multiple of `2 ^ 32` breaks
that.
-/

namespace MulticoreRtos.SleepQueue

open Scheduler Serialized Transition LinkedList
open Heap (null)

/-- `clock` is the last reading; `deadline` is the clock at a thread's last call
of `sleep` plus the time asked for. -/
structure Timed (Sem : Type) where
  machine : Machine Sem
  clock : Nat
  deadline : Nat → Nat

def longestSleep : Nat := 4294967

variable {Sem : Type} [DecidableEq Sem] {layout : Layout Sem} {s s' : Timed Sem} {q : Queues Sem}

def step (layout : Layout Sem) (s : Timed Sem) : Call Sem → Option (Timed Sem)
  | .sleep cpu now sleepTime times =>
      if s.clock ≤ now ∧ 1 ≤ sleepTime ∧ sleepTime ≤ longestSleep then
        (Serialized.step layout s.machine (.sleep cpu now sleepTime times)).map fun machine =>
          { machine
            clock := now
            deadline := Function.update s.deadline (s.machine.kernel.runPt cpu)
              (now + 1000 * sleepTime) }
      else none
  | .unsleep first second =>
      if s.clock ≤ first ∧ first ≤ second then
        (Serialized.step layout s.machine (.unsleep first second)).map fun machine =>
          { s with machine, clock := second }
      else none
  | call => (Serialized.step layout s.machine call).map fun machine => { s with machine }

def Start (layout : Layout Sem) (s : Timed Sem) : Prop := PowerOn layout s.machine

def lowBits (deadline : Nat) : Nat := deadline % 2 ^ 32

/-- The low 32 bits of the new deadline compare with those of every sleeper's
deadline as the deadlines do. -/
def TickFaithful (s : Timed Sem) : Call Sem → Prop
  | .sleep _ now sleepTime _ => ∀ t ∈ s.machine.live, s.machine.kernel.state t = .sleeping →
      (lowBits (now + 1000 * sleepTime) < lowBits (s.deadline t) ↔
        now + 1000 * sleepTime < s.deadline t)
  | _ => True

omit [DecidableEq Sem] in
instance (s : Timed Sem) (call : Call Sem) : Decidable (TickFaithful s call) :=
  match call with
  | .sleep _ now sleepTime _ => inferInstanceAs (Decidable (∀ t ∈ s.machine.live,
      s.machine.kernel.state t = .sleeping →
        (lowBits (now + 1000 * sleepTime) < lowBits (s.deadline t) ↔
          now + 1000 * sleepTime < s.deadline t)))
  | .initScheduler _ | .addThread _ _ | .schedule _ _ | .schedBlock _ _ _ | .schedUnblock _ _
  | .unsleep _ _ | .kill _ _ _ _ => inferInstanceAs (Decidable True)

def Guard (layout : Layout Sem) (s : Timed Sem) (call : Call Sem) : Prop :=
  Serialized.Guard layout s.machine call ∧ TickFaithful s call

instance (layout : Layout Sem) (s : Timed Sem) (call : Call Sem) : Decidable (Guard layout s call) :=
  inferInstanceAs (Decidable (_ ∧ _))

def EarliestFirst (s : Timed Sem) : Prop :=
  ∀ t, OnList s.machine.kernel.toShared t .asleep →
    s.deadline s.machine.kernel.sleepScheduleRoot ≤ s.deadline t

structure InOrder (tick deadline : Nat → Nat) (sleepers : List Nat) : Prop where
  ticks : ∀ t ∈ sleepers, tick t = lowBits (deadline t)
  sorted : sleepers.Pairwise fun t u => deadline t ≤ deadline u

structure Inv (layout : Layout Sem) (s : Timed Sem) (q : Queues Sem) : Prop where
  machine : Serialized.Inv layout s.machine q
  queue : InOrder s.machine.kernel.resumeTick s.deadline (q.members .asleep)

theorem tickAfter_eq (now sleepTime : Nat) :
    tickAfter now sleepTime = lowBits (now + 1000 * sleepTime) := by
  unfold tickAfter lowBits
  omega

theorem step_machine {call : Call Sem} (stepped : step layout s call = some s') :
    Serialized.step layout s.machine call = some s'.machine := by
  cases call with
  | sleep cpu now sleepTime times =>
      simp only [step] at stepped
      split at stepped
      · obtain ⟨machine, moved, rfl⟩ := Option.map_eq_some_iff.mp stepped
        exact moved
      · exact nomatch stepped
  | unsleep first second =>
      simp only [step] at stepped
      split at stepped
      · obtain ⟨machine, moved, rfl⟩ := Option.map_eq_some_iff.mp stepped
        exact moved
      · exact nomatch stepped
  | initScheduler cpu | addThread stackSize priority | schedule cpu times
  | schedBlock cpu sem times | schedUnblock cpu sem | kill cpu freeStack freeTcb last =>
      obtain ⟨machine, moved, rfl⟩ := Option.map_eq_some_iff.mp stepped
      exact moved

omit [DecidableEq Sem] in
theorem asleep_iff (inv : Serialized.Inv layout s.machine q) (t : Nat) :
    OnList s.machine.kernel.toShared t .asleep ↔ t ∈ q.members .asleep := by
  rw [on_list inv.base.rep, inv.base.rep.listed.members t .asleep (by simp)]
  simp

omit [DecidableEq Sem] in
theorem sleeper_state (inv : Serialized.Inv layout s.machine q) {t : Nat}
    (member : t ∈ q.members .asleep) :
    t ∈ s.machine.live ∧ s.machine.kernel.state t = .sleeping := by
  rw [inv.base.rep.listed.members t .asleep (by simp)] at member
  have fits := inv.base.rep.fits member
  exact ⟨(inv.base.live t).mpr (by simp [member]), fits.2⟩

theorem InOrder.join {tick deadline : Nat → Nat} {sleepers : List Nat}
    (order : InOrder tick deadline sleepers) {thread due : Nat} (awake : thread ∉ sleepers)
    (faithful : ∀ t ∈ sleepers, lowBits due < lowBits (deadline t) ↔ due < deadline t) :
    InOrder (Function.update tick thread (lowBits due)) (Function.update deadline thread due)
      (insertByKey (Function.update tick thread (lowBits due)) thread sleepers) := by
  have other (t : Nat) (member : t ∈ sleepers) : t ≠ thread := by
    rintro rfl
    exact awake member
  constructor
  · intro t member
    rcases (mem_insertByKey _ _ _ _).mp member with rfl | old
    · rw [Function.update_self, Function.update_self]
    · rw [Function.update_of_ne (other t old), Function.update_of_ne (other t old)]
      exact order.ticks t old
  · apply pairwise_insertByKey
    · apply order.sorted.imp_of_mem
      intro t u t_member u_member ordered
      rwa [Function.update_of_ne (other t t_member), Function.update_of_ne (other u u_member)]
    · intro t member
      rw [Function.update_self, Function.update_self, Function.update_of_ne (other t member),
        Function.update_of_ne (other t member), order.ticks t member]
      exact faithful t member

theorem InOrder.tail {tick deadline : Nat → Nat} {sleepers : List Nat}
    (order : InOrder tick deadline sleepers) : InOrder tick deadline sleepers.tail where
  ticks t member := order.ticks t (List.mem_of_mem_tail member)
  sorted := order.sorted.tail

theorem inv_step (inv : Inv layout s q) {call : Call Sem} (guarded : Guard layout s call)
    (stepped : step layout s call = some s') : ∃ q', Inv layout s' q' := by
  have moved := step_machine stepped
  obtain ⟨_, enabled, _⟩ := step_enabled moved
  obtain ⟨q', machine, sleepers⟩ := Serialized.inv_step inv.machine guarded.1 moved
  obtain ⟨asleep, ticks⟩ := Prod.mk.inj sleepers
  refine ⟨q', machine, ?_⟩
  rw [asleep, ticks]
  cases call with
  | sleep cpu now sleepTime times =>
      obtain ⟨_, _, here⟩ := inv.machine.runs enabled
      have awake : s.machine.kernel.runPt cpu ∉ q.members .asleep := by
        rw [inv.machine.base.rep.listed.members _ _ (by simp), here]
        exact nofun
      have joined := inv.queue.join awake fun t member =>
        guarded.2 t (sleeper_state inv.machine member).1 (sleeper_state inv.machine member).2
      simp only [step] at stepped
      split at stepped
      next timely =>
        obtain ⟨_, _, rfl⟩ := Option.map_eq_some_iff.mp stepped
        have positive : sleepTime ≠ 0 := by omega
        simpa only [sleepersAfter, positive, if_false, tickAfter_eq] using joined
      next => cases stepped
  | unsleep first second =>
      simp only [step] at stepped
      split at stepped
      · obtain ⟨_, _, rfl⟩ := Option.map_eq_some_iff.mp stepped
        exact inv.queue.tail
      · cases stepped
  | initScheduler cpu | addThread stackSize priority | schedule cpu times
  | schedBlock cpu sem times | schedUnblock cpu sem | kill cpu freeStack freeTcb last =>
      obtain ⟨_, _, rfl⟩ := Option.map_eq_some_iff.mp stepped
      exact inv.queue

theorem run_inv (reached : Reaches (step layout) (Guard layout) (Start layout) s) :
    ∃ q, Inv layout s q :=
  reached.invariant (fun s => ∃ q, Inv layout s q)
    (fun _ on => ⟨noQueues, powerOn_inv on, ⟨nofun, List.Pairwise.nil⟩⟩) <| by
    rintro before call after ⟨q, inv⟩ guarded stepped
    exact inv_step inv guarded stepped

/-- Along every run whose new ticks compare as the deadlines do, the thread that
`unsleep` would remove is due no later than any other sleeper. -/
theorem earliest_first_along_runs
    (reached : Reaches (step layout) (Guard layout) (Start layout) s) : EarliestFirst s := by
  obtain ⟨q, inv⟩ := run_inv reached
  intro t asleep
  have member := (asleep_iff inv.machine t).mp asleep
  have chain : Chain null s.machine.kernel.nextTcb s.machine.kernel.sleepScheduleRoot
      (q.members .asleep) := inv.machine.base.rep.joined .asleep
  have sorted := inv.queue.sorted
  cases nodes : q.members .asleep with
  | nil => simp [nodes] at member
  | cons first rest =>
      rw [nodes] at chain member sorted
      rw [chain.1]
      rcases List.mem_cons.mp member with rfl | behind
      · exact le_rfl
      · exact (List.pairwise_cons.mp sorted).1 t behind

/-! Two threads, one on each core -/

def poweredUp : Timed Unit := ⟨reset, 0, fun _ => 0⟩

def twoThreads : List (Call Unit) :=
  [.addThread 1024 1, .addThread 1024 1, .initScheduler .cpu0, .initScheduler .cpu1]

def sleepsInOneTurn : List (Call Unit) :=
  twoThreads ++ [.sleep .cpu0 5000 10 readings, .sleep .cpu1 5100 1 readings]

def sleepsAcrossTheWrap : List (Call Unit) :=
  twoThreads ++ [.sleep .cpu0 (2 ^ 32 - 5000) 10 readings, .sleep .cpu1 (2 ^ 32 - 4900) 1 readings]

theorem poweredUp_start : Start board poweredUp := reset_powerOn

theorem earliest_first_along_runs_board :
    ∃ s, exec (step board) poweredUp sleepsInOneTurn = some s ∧ EarliestFirst s := by
  obtain ⟨s, executed, _⟩ : ∃ s ∈ exec (step board) poweredUp sleepsInOneTurn, s.clock = 5100 := by
    decide +kernel
  have allowed : Allowed (step board) (Guard board) poweredUp sleepsInOneTurn := by decide +kernel
  exact ⟨s, executed,
    earliest_first_along_runs (exec_reaches sleepsInOneTurn (.start poweredUp_start) allowed executed)⟩

/-- The head of the queue is due 8.9 ms after the thread behind it. -/
theorem later_deadline_first_across_the_wrap :
    ∃ s, Reaches (step board) Transition.free (Start board) s ∧ ¬ EarliestFirst s := by
  obtain ⟨s, executed, later, root, behind⟩ :
      ∃ s ∈ exec (step board) poweredUp sleepsAcrossTheWrap,
        s.deadline (s.machine.kernel.nextTcb s.machine.kernel.sleepScheduleRoot) + 8900 =
            s.deadline s.machine.kernel.sleepScheduleRoot ∧
          s.machine.kernel.sleepScheduleRoot ≠ null ∧
          s.machine.kernel.nextTcb s.machine.kernel.sleepScheduleRoot ≠ null := by
    decide +kernel
  refine ⟨s, exec_reaches sleepsAcrossTheWrap (.start poweredUp_start) (allowed_free _ _ _) executed,
    ?_⟩
  intro earliest
  have first : s.deadline s.machine.kernel.sleepScheduleRoot ≤
      s.deadline (s.machine.kernel.nextTcb s.machine.kernel.sleepScheduleRoot) :=
    earliest _ ⟨by simp, .later root (.here behind)⟩
  omega

end MulticoreRtos.SleepQueue
