import MulticoreRtos.ContextSwitch

/-!
`schedule()` more than once before the switch. To the sections of the two cores
come those of `kill`, which signals `heap_lock` twice between giving up its
thread and its own call of `schedule()`, and `add_thread`. A call of `schedule()`
puts back `RunPt` alone and overwrites `NextRunPt`, so a thread that an earlier
call selected stays `RUNNING` without a core.
-/

namespace MulticoreRtos.RepeatedSchedule

open Scheduler Serialized ContextSwitch Transition
open Heap (null)

/-- How far a core is with `kill`, all of which runs with interrupts masked:
`freeing` from the first section on, `stubbed` once `RunPt` is the stub. -/
inductive Stage where
  | outside
  | freeing
  | stubbed
  deriving DecidableEq

/-- `live` is history, as in the serialized machine. -/
structure Threads (Sem : Type) extends Cores Sem where
  stage : Core → Stage
  live : Finset Nat

/-- `addThread` is `add_thread` once both calls of `malloc` have answered. -/
inductive Part (Sem : Type) where
  | common (part : Section Sem)
  | retire (cpu : Core)
  | stub (cpu : Core)
  | addThread (newtcb stack stackSize priority : Nat)

variable {Sem : Type} [DecidableEq Sem]

/-- Where a part can start: any section at any point, and the switch outside `kill`
only. Inside `kill` a core signals `heap_lock`, and it calls `sched_block` if it
finds that semaphore taken. -/
def Enabled (s : Threads Sem) : Part Sem → Prop
  | .common (.pendSv cpu sp) =>
      ContextSwitch.Enabled s.toCores (.pendSv cpu sp) ∧ s.stage cpu = .outside
  | .common part => ContextSwitch.Enabled s.toCores part
  | .retire cpu => s.kernel.runPt cpu ≠ null ∧ s.kernel.schedulerHeld = false
  | .stub cpu => s.stage cpu = .freeing
  | .addThread _ _ _ priority => priority < priorityLvlCnt ∧ s.kernel.schedulerHeld = false

instance (s : Threads Sem) (part : Part Sem) : Decidable (Enabled s part) :=
  match part with
  | .common (.pendSv _ _) => inferInstanceAs (Decidable (_ ∧ _))
  | .common (.schedule cpu times) =>
      inferInstanceAs (Decidable (ContextSwitch.Enabled s.toCores (.schedule cpu times)))
  | .common (.schedBlock cpu sem) =>
      inferInstanceAs (Decidable (ContextSwitch.Enabled s.toCores (.schedBlock cpu sem)))
  | .common (.schedUnblock cpu sem) =>
      inferInstanceAs (Decidable (ContextSwitch.Enabled s.toCores (.schedUnblock cpu sem)))
  | .common (.sleep cpu now sleepTime) =>
      inferInstanceAs (Decidable (ContextSwitch.Enabled s.toCores (.sleep cpu now sleepTime)))
  | .common (.unsleep first second) =>
      inferInstanceAs (Decidable (ContextSwitch.Enabled s.toCores (.unsleep first second)))
  | .retire _ => inferInstanceAs (Decidable (_ ∧ _))
  | .stub _ => inferInstanceAs (Decidable (_ = _))
  | .addThread _ _ _ _ => inferInstanceAs (Decidable (_ ∧ _))

def stageAfter (stage : Core → Stage) : Section Sem → Core → Stage
  | .schedule cpu _ =>
      if stage cpu = .stubbed then Function.update stage cpu .outside else stage
  | _ => stage

def retire (s : Threads Sem) (cpu : Core) : Threads Sem :=
  let thread := s.kernel.runPt cpu
  let shared := dequeueThread s.kernel.toShared thread
  { kernel := { s.kernel with
      toShared := { shared with state := Function.update shared.state thread .dead } }
    parking := Function.update s.parking cpu true
    stage := Function.update s.stage cpu .freeing
    live := s.live.erase thread }

/-- "set RunPt to point to a stub" -/
def stub (layout : Layout Sem) (s : Threads Sem) (cpu : Core) : Threads Sem :=
  { s with
    kernel := { s.kernel with runPt := Function.update s.kernel.runPt cpu layout.blackHole }
    stage := Function.update s.stage cpu .stubbed }

def perform (layout : Layout Sem) (s : Threads Sem) : Part Sem → Option (Threads Sem)
  | .common part =>
      (ContextSwitch.perform s.toCores part).map fun cores =>
        { s with toCores := cores, stage := stageAfter s.stage part }
  | .retire cpu => some (retire s cpu)
  | .stub cpu => some (stub layout s cpu)
  | .addThread newtcb stack stackSize priority =>
      some { s with
        kernel := Scheduler.addThread s.kernel newtcb stack stackSize priority
        live := insert newtcb s.live }

def step (layout : Layout Sem) (s : Threads Sem) (part : Part Sem) : Option (Threads Sem) :=
  if Enabled s part then perform layout s part else none

def Start (layout : Layout Sem) (s : Threads Sem) : Prop :=
  (∃ m, Reaches (Serialized.step layout) (Serialized.Guard layout) (PowerOn layout) m ∧
    s.kernel = m.kernel ∧ s.live = m.live) ∧ (s.parking = fun _ => false) ∧
      s.stage = fun _ => .outside

def selectedBy (k : Kernel Sem) (cpu : Core) : Nat :=
  if k.pendSv cpu then k.nextRunPt cpu else k.runPt cpu

/-- `schedule()` on core `cpu` puts back no thread that the other core has
selected. -/
def OwnRuns (k : Kernel Sem) (cpu : Core) : Prop :=
  k.state (k.runPt cpu) = .running → k.runPt cpu ≠ selectedBy k cpu.other

/-- The answer of `malloc` is a block of the heap that is no thread's. -/
def Unused (layout : Layout Sem) (s : Threads Sem) (newtcb : Nat) : Prop :=
  newtcb ∈ layout.slots.addresses ∧ newtcb ∉ s.live ∧ ∀ c, s.kernel.idleThread c ≠ newtcb

/-- `kill` parks nobody: `RunPt` is off its ring already. -/
def Guard (layout : Layout Sem) (s : Threads Sem) : Part Sem → Prop
  | .common (.schedule cpu _) => SwitchTaken s.kernel cpu ∧ OwnRuns s.kernel cpu
  | .common (.schedBlock cpu _) => Current s.toCores cpu ∧ s.stage cpu = .outside
  | .common (.sleep cpu _ _) => Current s.toCores cpu ∧ s.stage cpu = .outside
  | .common _ => True
  | .retire cpu => InThread s.toCores cpu
  | .stub _ => True
  | .addThread newtcb _ _ _ => Unused layout s newtcb

/-- Every running thread has a core, and the counters count these threads. -/
structure NoneLost (s : Threads Sem) : Prop where
  placed : ∀ t ∈ s.live, s.kernel.state t = .running →
    ∃ c, s.kernel.runPt c = t ∨ s.kernel.nextRunPt c = t
  counted : ∀ p < priorityLvlCnt,
    s.kernel.runningPriorityCount p = population s.kernel.toShared s.live p .running

instance (k : Kernel Sem) (cpu : Core) : Decidable (OwnRuns k cpu) :=
  inferInstanceAs (Decidable (_ → _))

instance (layout : Layout Sem) (s : Threads Sem) (newtcb : Nat) :
    Decidable (Unused layout s newtcb) :=
  decidable_of_iff (newtcb ∈ layout.slots.addresses ∧ newtcb ∉ s.live ∧
      s.kernel.idleThread .cpu0 ≠ newtcb ∧ s.kernel.idleThread .cpu1 ≠ newtcb) <| by
    apply and_congr_right fun _ => and_congr_right fun _ => ?_
    constructor
    · rintro ⟨first, second⟩ c
      cases c
      · exact first
      · exact second
    · exact fun all => ⟨all .cpu0, all .cpu1⟩

instance (layout : Layout Sem) (s : Threads Sem) (part : Part Sem) :
    Decidable (Guard layout s part) :=
  match part with
  | .common (.schedule _ _) => inferInstanceAs (Decidable (_ ∧ _))
  | .common (.schedBlock _ _) | .common (.sleep _ _ _) => inferInstanceAs (Decidable (_ ∧ _))
  | .retire cpu => inferInstanceAs (Decidable (InThread s.toCores cpu))
  | .addThread newtcb _ _ _ => inferInstanceAs (Decidable (Unused layout s newtcb))
  | .common (.schedUnblock _ _) | .common (.unsleep _ _) | .common (.pendSv _ _) | .stub _ =>
      inferInstanceAs (Decidable True)

/-! The invariant -/

variable {layout : Layout Sem} {s s' : Threads Sem} {q : Queues Sem}

structure Inv (layout : Layout Sem) (s : Threads Sem) (q : Queues Sem) : Prop where
  frame : Frame layout.slots s.toCores q
  live : ∀ t, t ∈ s.live ↔ q.place t ≠ .gone
  blackHole : s.kernel.state layout.blackHole = .dead
  -- inside `kill` a core is to call `schedule()` or has called it
  staged : ∀ c, s.stage c ≠ .outside →
    s.kernel.runPt c ≠ null ∧ s.kernel.pendSv c = !s.parking c

omit [DecidableEq Sem] in
theorem Inv.blackHole_gone (inv : Inv layout s q) : q.place layout.blackHole = .gone := by
  by_contra live
  exact layout.blackHole_outside (inv.frame.rep.listed.inside _ live)

omit [DecidableEq Sem] in
theorem Inv.own (inv : Inv layout s q) {c : Core} (started : s.kernel.runPt c ≠ null)
    (taken : SwitchTaken s.kernel c) (own : OwnRuns s.kernel c) : Own s.kernel q c := by
  refine inv.frame.own started (inv.frame.settled started taken) ?_
  intro runs d other given same
  obtain rfl : d = c.other := Core.eq_of_ne other (Core.other_ne c)
  apply own runs
  have outside : s.parking c.other = false := by
    by_contra parks
    exact given (inv.frame.parked _ (by simpa using parks))
  rw [← same, selectedBy]
  by_cases waits : s.kernel.pendSv c.other = true
  · rw [if_pos waits, inv.frame.pending _ waits outside, assigned, if_neg given]
  · have idle : s.kernel.pendSv c.other = false := by simpa using waits
    have on : s.kernel.runPt c.other ≠ null := fun off => given (inv.frame.off _ off).1
    rw [if_neg waits, inv.frame.executing _ on idle outside, assigned, if_neg given]

omit [DecidableEq Sem] in
theorem schedule_local {k k' : Kernel Sem} {cpu : Core} {times : Readings}
    (scheduled : Scheduler.schedule k cpu times = some k') :
    k'.runPt = k.runPt ∧ k'.pendSv = Function.update k.pendSv cpu true := by
  obtain ⟨runPt, _, _, _, _, pendSv⟩ := settle_local k cpu times.exitIdle
  obtain ⟨pri, _, rfl⟩ := Option.map_eq_some_iff.mp scheduled
  by_cases idle : pri = idlePriority
  · simp [idle, enterIdle, runPt, pendSv]
  · simp [idle, runPt, pendSv]

/-- The core is `c`, and the section parks its thread or switches. -/
def Leaves (c : Core) : Section Sem → Prop
  | .schedBlock cpu _ | .sleep cpu _ _ | .pendSv cpu _ => cpu = c
  | _ => False

/-- Any other section leaves a core inside `kill` before its call of `schedule()` or
before its switch. -/
theorem common_waits {s s' : Cores Sem} {part : Section Sem}
    (performed : ContextSwitch.perform s part = some s') {c : Core} (stays : ¬ Leaves c part)
    (waits : s.kernel.pendSv c = !s.parking c) :
    s'.kernel.runPt c = s.kernel.runPt c ∧ s'.kernel.pendSv c = !s'.parking c := by
  cases part with
  | schedule cpu times =>
      obtain ⟨k, scheduled, rfl⟩ := Option.map_eq_some_iff.mp performed
      obtain ⟨runPt, pendSv⟩ := schedule_local scheduled
      refine ⟨congrFun runPt c, ?_⟩
      by_cases this : c = cpu
      · subst this
        simp only [pendSv, Function.update_self, Bool.not_false]
      · simpa only [pendSv, Function.update_of_ne this] using waits
  | schedBlock cpu sem =>
      obtain ⟨k, blocked, rfl⟩ := Option.map_eq_some_iff.mp performed
      obtain ⟨⟨next, root⟩, _, rfl⟩ := Option.map_eq_some_iff.mp blocked
      exact ⟨rfl, by simpa only [Function.update_of_ne (Ne.symm stays)] using waits⟩
  | sleep cpu now sleepTime =>
      obtain ⟨k, slept, rfl⟩ := Option.map_eq_some_iff.mp performed
      obtain ⟨⟨next, root⟩, _, rfl⟩ := Option.map_eq_some_iff.mp slept
      exact ⟨rfl, by simpa only [Function.update_of_ne (Ne.symm stays)] using waits⟩
  | schedUnblock cpu sem =>
      obtain ⟨⟨k, higher⟩, unblocked, rfl⟩ := Option.map_eq_some_iff.mp performed
      obtain rfl := schedUnblock_kernel unblocked
      exact ⟨rfl, waits⟩
  | unsleep first second =>
      obtain rfl := Option.some.inj performed
      obtain ⟨runPt, _, _, pendSv, _⟩ := unsleep_local s.kernel first second
      exact ⟨congrFun runPt c, by simpa only [pendSv] using waits⟩
  | pendSv cpu sp =>
      obtain rfl := Option.some.inj performed
      have other : c ≠ cpu := Ne.symm stays
      refine ⟨Function.update_of_ne other _ _, ?_⟩
      simpa only [pendSvHandler, Function.update_of_ne other] using waits

theorem inv_common (inv : Inv layout s q) {part : Section Sem}
    (guarded : Guard layout s (.common part)) (enabled : Enabled s (.common part))
    (performed : perform layout s (.common part) = some s') : ∃ q', Inv layout s' q' := by
  obtain ⟨cores, done, rfl⟩ := Option.map_eq_some_iff.mp performed
  have common : ContextSwitch.Enabled s.toCores part := by
    cases part with
    | pendSv cpu sp => exact enabled.1
    | schedule cpu times | schedBlock cpu sem | schedUnblock cpu sem | sleep cpu now sleepTime
    | unsleep first second => exact enabled
  have parks : ParksCurrent s.toCores part := by
    cases part with
    | schedBlock cpu sem | sleep cpu now sleepTime => exact guarded.1
    | schedule cpu times | schedUnblock cpu sem | unsleep first second | pendSv cpu sp => trivial
  have own (cpu : Core) (times : Readings) (same : part = .schedule cpu times) :
      Own s.kernel q cpu := by
    subst same
    exact inv.own common.1 guarded.1 guarded.2
  obtain ⟨q', frame, alive, unlinked⟩ := inv.frame.perform common parks own done
  refine ⟨q', frame, ?_, ?_, ?_⟩
  · intro t
    rw [inv.live, ne_eq, ne_eq, alive]
  · exact (unlinked _ inv.blackHole_gone).trans inv.blackHole
  · intro c killing
    have before : s.stage c ≠ .outside := by
      intro outside
      apply killing
      cases part with
      | schedule cpu times =>
          simp only [stageAfter]
          split
          · by_cases this : c = cpu
            · rw [this, Function.update_self]
            · rw [Function.update_of_ne this, outside]
          · exact outside
      | schedBlock cpu sem | schedUnblock cpu sem | sleep cpu now sleepTime
      | unsleep first second | pendSv cpu sp => exact outside
    have stays : ¬ Leaves c part := by
      intro leaves
      cases part with
      | schedBlock cpu sem | sleep cpu now sleepTime =>
          obtain rfl : cpu = c := leaves
          exact before guarded.2
      | pendSv cpu sp =>
          obtain rfl : cpu = c := leaves
          exact before enabled.2
      | schedule cpu times | schedUnblock cpu sem | unsleep first second => exact leaves
    obtain ⟨started, waits⟩ := inv.staged c before
    obtain ⟨runPt, after⟩ := common_waits done stays waits
    exact ⟨by rwa [runPt], after⟩

theorem inv_retire (inv : Inv layout s q) {c : Core} (inside : InThread s.toCores c) :
    ∃ q', Inv layout (retire s c) q' := by
  have frame := inv.frame
  have current := inside.current
  obtain ⟨given, runs, here⟩ := frame.current current
  let thread := s.kernel.runPt c
  have live : q.place thread ≠ .gone := by simp [thread, here]
  have untouched := dequeueThread_untouched s.kernel.toShared (s.kernel.runPt c)
  let q' := q.drop thread (s.kernel.priority thread)
  have place_self : q'.place thread = .gone := Function.update_self _ _ _
  have place_of (t : Nat) (other : t ≠ thread) : q'.place t = q.place t :=
    Function.update_of_ne other _ _
  have state_self : (retire s c).kernel.state thread = .dead := Function.update_self _ _ _
  have state_of (t : Nat) (other : t ≠ thread) : (retire s c).kernel.state t = s.kernel.state t := by
    simp only [retire]
    rw [Function.update_of_ne other, untouched.state]
  have not_thread (t : Nat) (gone : q.place t = .gone) : t ≠ thread := by
    rintro rfl
    exact live gone
  have idles : Idles (retire s c).kernel q' := by
    refine ⟨fun d there => ?_, frame.idles.apart, fun d there => ?_⟩
    · obtain ⟨gone, state, priority⟩ := frame.idles.tcb d there
      have other := not_thread _ gone
      refine ⟨(place_of _ other).trans gone, (state_of _ other).trans state, ?_⟩
      simp only [retire, untouched.priority]
      exact priority
    · simp only [retire, untouched.active]
      exact frame.idles.level d there
  have linked (d : Core) (started : s.kernel.runPt d ≠ null)
      (running : (retire s c).kernel.state (s.kernel.runPt d) = .running) :
      q'.place (s.kernel.runPt d) ≠ .gone := by
    by_cases this : s.kernel.runPt d = thread
    · rw [this, state_self] at running
      exact nomatch running
    · rw [place_of _ this]
      rw [state_of _ this] at running
      exact frame.linked d started running
  have rep : Rep layout.slots (retire s c).kernel.toShared q' :=
    drop_moved frame.rep here runs .dead
  have free : q'.running c = null := if_pos given
  have kept (d : Core) (other : d ≠ c) : q'.running d = q.running d :=
    if_neg (frame.others_keep current other)
  refine ⟨q', frame.given_up current rep idles linked free kept ⟨rfl, rfl, rfl, rfl⟩, ?_, ?_, ?_⟩
  · intro t
    by_cases this : t = thread
    · subst this
      simp [retire, thread, place_self]
    · rw [place_of t this, ← inv.live t]
      simp [retire, thread, this]
  · rw [state_of _ (not_thread _ inv.blackHole_gone)]
    exact inv.blackHole
  · intro d killing
    by_cases this : d = c
    · subst this
      refine ⟨inside.1.1, ?_⟩
      simp only [retire, Function.update_self, Bool.not_true]
      exact inside.2.1
    · simp only [retire, Function.update_of_ne this] at killing ⊢
      exact inv.staged d killing

omit [DecidableEq Sem] in
theorem inv_stub (inv : Inv layout s q) {c : Core} (freeing : s.stage c = .freeing) :
    Inv layout (stub layout s c) q := by
  have frame := inv.frame
  obtain ⟨started, waits⟩ := inv.staged c (by simp [freeing])
  have runPt_of (d : Core) (other : d ≠ c) : (stub layout s c).kernel.runPt d = s.kernel.runPt d :=
    Function.update_of_ne other _ _
  have runPt_self : (stub layout s c).kernel.runPt c = layout.blackHole :=
    Function.update_self _ _ _
  refine ⟨{ frame with
    idles := ⟨fun d there => ?_, frame.idles.apart, frame.idles.level⟩
    off := ?_, on := ?_, linked := ?_, executing := ?_, returning := ?_ }, inv.live,
    inv.blackHole, ?_⟩
  · obtain ⟨gone, state, priority⟩ := frame.idles.tcb d there
    exact ⟨gone, state, priority⟩
  · intro d off
    by_cases this : d = c
    · rw [this, runPt_self] at off
      exact absurd off layout.present
    · rw [runPt_of d this] at off
      exact frame.off d off
  · intro d there
    by_cases this : d = c
    · rw [this]
      exact frame.on c started
    · rw [runPt_of d this] at there
      exact frame.on d there
  · intro d there running
    by_cases this : d = c
    · rw [this, runPt_self] at running
      exact nomatch inv.blackHole.symm.trans running
    · rw [runPt_of d this] at there running ⊢
      exact frame.linked d there running
  · intro d there idle outside
    by_cases this : d = c
    · subst this
      have idle : s.kernel.pendSv d = false := idle
      have outside : s.parking d = false := outside
      simp [idle, outside] at waits
    · rw [runPt_of d this] at there ⊢
      exact frame.executing d there idle outside
  · intro d pending parks
    by_cases this : d = c
    · subst this
      have pending : s.kernel.pendSv d = true := pending
      have parks : s.parking d = true := parks
      simp [pending, parks] at waits
    · rw [runPt_of d this]
      exact frame.returning d pending parks
  · intro d killing
    by_cases this : d = c
    · subst this
      exact ⟨by rw [runPt_self]; exact layout.present, waits⟩
    · rw [runPt_of d this]
      simp only [stub, Function.update_of_ne this] at killing
      exact inv.staged d killing

theorem inv_addThread (inv : Inv layout s q) {newtcb stack stackSize priority : Nat}
    (unused : Unused layout s newtcb) (bounded : priority < priorityLvlCnt) :
    Inv layout
      { s with
        kernel := Scheduler.addThread s.kernel newtcb stack stackSize priority
        live := insert newtcb s.live }
      (q.enter newtcb (.ready priority) (newtcb :: q.members (.ready priority))) := by
  obtain ⟨inside, not_live, not_idle⟩ := unused
  have frame := inv.frame
  have gone : q.place newtcb = .gone := by
    by_contra live
    exact not_live ((inv.live newtcb).mpr live)
  have not_stub : layout.blackHole ≠ newtcb := fun same =>
    layout.blackHole_outside (same ▸ inside)
  refine ⟨{ frame with
    rep := addThread_enters frame.rep gone inside bounded stack stackSize
    idles := ⟨?_, frame.idles.apart, ?_⟩
    linked := ?_ }, ?_, ?_, inv.staged⟩
  · intro c there
    obtain ⟨idle_gone, state, rank⟩ := frame.idles.tcb c there
    have other := not_idle c
    refine ⟨(Function.update_of_ne other _ _).trans idle_gone,
      (Function.update_of_ne other _ _).trans state, ?_⟩
    simp only [Scheduler.addThread, enqueueThread_priority]
    exact (Function.update_of_ne other _ _).trans rank
  · intro c there
    simp only [Scheduler.addThread, (enqueueThread_counts _ _).1, Function.update_self]
    exact (Function.update_of_ne bounded.ne' _ _).trans (frame.idles.level c there)
  · intro c started running
    -- `RunPt` may be the TCB of a thread that `kill` has freed
    by_cases this : s.kernel.runPt c = newtcb
    · simp [Scheduler.addThread, this] at running
    · simp only [Scheduler.addThread, enqueueThread_state, Function.update_of_ne this] at running
      have kept : (q.enter newtcb (.ready priority) (newtcb :: q.members (.ready priority))).place
          (s.kernel.runPt c) = q.place (s.kernel.runPt c) := Function.update_of_ne this _ _
      exact kept.trans_ne (frame.linked c started running)
  · intro t
    by_cases this : t = newtcb
    · subst this
      simp [Queues.enter]
    · simp [Queues.enter, this, inv.live t]
  · exact (Function.update_of_ne not_stub _ _).trans inv.blackHole

theorem inv_step (inv : Inv layout s q) {part : Part Sem} (guarded : Guard layout s part)
    (stepped : step layout s part = some s') : ∃ q', Inv layout s' q' := by
  by_cases enabled : Enabled s part
  · rw [step, if_pos enabled] at stepped
    cases part with
    | common part => exact inv_common inv guarded enabled stepped
    | retire cpu =>
        obtain rfl := Option.some.inj stepped
        exact inv_retire inv guarded
    | stub cpu =>
        obtain rfl := Option.some.inj stepped
        exact ⟨q, inv_stub inv enabled⟩
    | addThread newtcb stack stackSize priority =>
        obtain rfl := Option.some.inj stepped
        exact ⟨_, inv_addThread inv guarded enabled.1⟩
  · rw [step, if_neg enabled] at stepped
    exact nomatch stepped

theorem start_inv (start : Start layout s) : ∃ q, Inv layout s q := by
  obtain ⟨⟨m, reached, kernel, live⟩, parking, stage⟩ := start
  obtain ⟨q, inv⟩ := Serialized.run_inv reached
  refine ⟨q, (entry_inv inv kernel parking).frame, ?_, ?_, ?_⟩
  · rw [live]
    exact inv.base.live
  · rw [kernel]
    exact inv.base.blackHole
  · intro c killing
    rw [stage] at killing
    exact absurd rfl killing

omit [DecidableEq Sem] in
theorem Inv.noneLost (inv : Inv layout s q) : NoneLost s := by
  have frame := inv.frame
  constructor
  · intro t member runs
    have live := (inv.live t).mp member
    obtain ⟨c, rfl⟩ := (frame.rep.runs_iff live).mp runs
    have given := frame.rep.listed.ne_null _ live
    have outside : s.parking c = false := by
      by_contra parks
      exact given (frame.parked c (by simpa using parks))
    refine ⟨c, ?_⟩
    cases waits : s.kernel.pendSv c with
    | true => exact Or.inr ((frame.pending c waits outside).trans (if_neg given))
    | false =>
        have on : s.kernel.runPt c ≠ null := fun off => given (frame.off c off).1
        exact Or.inl ((frame.executing c on waits outside).trans (if_neg given))
  · intro p below
    rw [(frame.rep.counted p below).running, population_members frame.rep inv.live p (Or.inl rfl)]

/-- Along every run in which no call of `schedule()` drops a thread it selected
before its switch, and no core parks but its current thread, every running thread
has a core and is counted. -/
theorem none_lost_along_runs
    (reached : Reaches (step layout) (Guard layout) (Start layout) s) : NoneLost s := by
  obtain ⟨q, inv⟩ := reached.invariant (fun s => ∃ q, Inv layout s q)
    (fun _ start => start_inv start) (by
      rintro before part after ⟨q, inv⟩ guarded stepped
      exact inv_step inv guarded stepped)
  exact inv.noneLost

/-! Three threads of one level on two cores -/

/-- On core 0 `schedule()` selects the running thread again; before the switch a handler
parks it and calls `schedule()` once more, which selects the thread that core 1 has woken.
Then the thread of core 1 ends. -/
def interrupted : List (Part Unit) :=
  [.common (.schedBlock .cpu1 ()), .common (.schedule .cpu1 readings), .common (.pendSv .cpu1 0),
    .common (.schedule .cpu0 readings), .common (.schedBlock .cpu0 ()),
    .common (.schedUnblock .cpu1 ()), .common (.schedule .cpu0 readings), .common (.pendSv .cpu0 0),
    .retire .cpu1, .stub .cpu1, .common (.schedule .cpu1 readings), .common (.pendSv .cpu1 0)]

/-- While core 0 frees its thread's stack, the thread of core 1 blocks on
`heap_lock`, so that the signal of core 0 calls `schedule()`. -/
def contended : List (Part Unit) :=
  [.retire .cpu0, .common (.schedBlock .cpu1 ()), .common (.schedule .cpu1 readings),
    .common (.pendSv .cpu1 0), .common (.schedUnblock .cpu0 ()),
    .common (.schedule .cpu0 readings), .stub .cpu0, .common (.schedule .cpu0 readings)]

def launched (m : Machine Unit) : Threads Unit :=
  ⟨⟨m.kernel, fun _ => false⟩, fun _ => .outside, m.live⟩

theorem launched_start {m : Machine Unit}
    (booted : exec (Serialized.step board) reset boot = some m) : Start board (launched m) := by
  have guarded : Allowed (Serialized.step board) (Serialized.Guard board) reset boot := by
    decide +kernel
  exact ⟨⟨m, exec_reaches boot (.start reset_powerOn) guarded booted, rfl, rfl⟩, rfl, rfl⟩

theorem none_lost_along_runs_board :
    ∃ m ∈ exec (Serialized.step board) reset boot, ∃ s ∈ exec (step board) (launched m) interrupted,
      s.live.card = 2 ∧ NonIdle s.kernel .cpu0 ∧ ¬ NonIdle s.kernel .cpu1 ∧ NoneLost s := by
  obtain ⟨m, booted, s, executed, two, busy, idle, allowed⟩ :
      ∃ m ∈ exec (Serialized.step board) reset boot,
        ∃ s ∈ exec (step board) (launched m) interrupted,
          s.live.card = 2 ∧ NonIdle s.kernel .cpu0 ∧ ¬ NonIdle s.kernel .cpu1 ∧
            Allowed (step board) (Guard board) (launched m) interrupted := by
    decide +kernel
  exact ⟨m, booted, s, executed, two, busy, idle, none_lost_along_runs
    (exec_reaches interrupted (.start (launched_start booted)) allowed executed)⟩

/-- The thread that the signal selected is `RUNNING` on no core. -/
theorem selected_thread_lost :
    ∃ s, Reaches (step board) Transition.free (Start board) s ∧ ¬ NoneLost s := by
  obtain ⟨m, booted, s, executed, t, member, runs, nowhere⟩ :
      ∃ m ∈ exec (Serialized.step board) reset boot,
        ∃ s ∈ exec (step board) (launched m) contended,
          ∃ t ∈ s.live, s.kernel.state t = .running ∧
            (s.kernel.runPt .cpu0 ≠ t ∧ s.kernel.nextRunPt .cpu0 ≠ t) ∧
              s.kernel.runPt .cpu1 ≠ t ∧ s.kernel.nextRunPt .cpu1 ≠ t := by
    decide +kernel
  refine ⟨s, exec_reaches contended (.start (launched_start booted)) (allowed_free _ _ _) executed,
    ?_⟩
  intro none_lost
  obtain ⟨c, current⟩ := none_lost.placed t member runs
  cases c with
  | cpu0 => exact current.elim nowhere.1.1 nowhere.1.2
  | cpu1 => exact current.elim nowhere.2.1 nowhere.2.2

end MulticoreRtos.RepeatedSchedule
