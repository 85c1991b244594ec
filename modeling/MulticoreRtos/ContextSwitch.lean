import MulticoreRtos.SerializedRuns

/-!
The two cores step by step: the sections under `SCHEDULER` and the PendSV switch
that follows a section of `schedule()` later. `schedule()` gives up the caller's
thread before its context is saved, so the other core may select that thread and
load the old context. Nothing else lets a thread run twice: along every run in
which `schedule()` never finds the other core's `RunPt` waiting at the best
level, each switch is to a thread whose context has been saved.
-/

namespace MulticoreRtos.ContextSwitch

open Scheduler Serialized Transition
open Heap (null)

/-- `parking` is a core between the section of `sched_block` or `sleep` and its
call of `schedule()`. -/
structure Cores (Sem : Type) where
  kernel : Kernel Sem
  parking : Core → Bool

inductive Section (Sem : Type) where
  | schedule (cpu : Core) (times : Readings)
  | schedBlock (cpu : Core) (sem : Sem)
  | schedUnblock (cpu : Core) (sem : Sem)
  | sleep (cpu : Core) (now sleepTime : Nat)
  | unsleep (first second : Nat)
  | pendSv (cpu : Core) (sp : Nat)

variable {Sem : Type}

/-- The core executes its current thread, which is not the idle one. -/
def InThread (s : Cores Sem) (cpu : Core) : Prop :=
  NonIdle s.kernel cpu ∧ s.kernel.pendSv cpu = false ∧ s.parking cpu = false

/-- The thread of the core, not the idle one, is neither parked nor replaced by another:
it executes, or a handler has interrupted it. -/
def Current (s : Cores Sem) (cpu : Core) : Prop :=
  NonIdle s.kernel cpu ∧ (s.kernel.pendSv cpu = true → s.kernel.nextRunPt cpu = s.kernel.runPt cpu) ∧
    s.parking cpu = false

instance (s : Cores Sem) (cpu : Core) : Decidable (InThread s cpu) :=
  inferInstanceAs (Decidable (_ ∧ _ ∧ _))

instance (s : Cores Sem) (cpu : Core) : Decidable (Current s cpu) :=
  inferInstanceAs (Decidable (_ ∧ (_ → _) ∧ _))

theorem InThread.current {s : Cores Sem} {cpu : Core} (inside : InThread s cpu) : Current s cpu := by
  obtain ⟨busy, idle, outside⟩ := inside
  refine ⟨busy, fun waits => ?_, outside⟩
  rw [idle] at waits
  exact nomatch waits

variable [DecidableEq Sem]

/-- Where a section can start: in a thread, or in an interrupt handler before or
after any other section. -/
def Enabled (s : Cores Sem) : Section Sem → Prop
  | .schedule cpu _ => s.kernel.runPt cpu ≠ null ∧ s.kernel.schedulerHeld = false
  | .schedBlock cpu _ => s.kernel.runPt cpu ≠ null ∧ s.kernel.schedulerHeld = false
  | .schedUnblock cpu sem =>
      (s.kernel.runPt cpu ≠ null ∧ s.kernel.bthreadsRoot sem ≠ null) ∧ s.kernel.schedulerHeld = false
  | .sleep cpu _ sleepTime =>
      (s.kernel.runPt cpu ≠ null ∧ sleepTime ≠ 0) ∧ s.kernel.schedulerHeld = false
  | .unsleep _ _ => s.kernel.schedulerHeld = false
  | .pendSv cpu _ => s.kernel.pendSv cpu = true

instance (s : Cores Sem) (part : Section Sem) : Decidable (Enabled s part) :=
  match part with
  | .schedule _ _ => inferInstanceAs (Decidable (_ ∧ _))
  | .schedBlock _ _ => inferInstanceAs (Decidable (_ ∧ _))
  | .schedUnblock _ _ => inferInstanceAs (Decidable ((_ ∧ _) ∧ _))
  | .sleep _ _ _ => inferInstanceAs (Decidable ((_ ∧ _) ∧ _))
  | .unsleep _ _ => inferInstanceAs (Decidable (_ = _))
  | .pendSv _ _ => inferInstanceAs (Decidable (_ = _))

def perform (s : Cores Sem) : Section Sem → Option (Cores Sem)
  | .schedule cpu times =>
      (schedule s.kernel cpu times).map fun kernel =>
        { kernel, parking := Function.update s.parking cpu false }
  | .schedBlock cpu sem =>
      (schedBlock s.kernel cpu sem).map fun kernel =>
        { kernel, parking := Function.update s.parking cpu true }
  | .schedUnblock cpu sem =>
      (schedUnblock s.kernel cpu sem).map fun (kernel, _) => { s with kernel }
  | .sleep cpu now sleepTime =>
      (sleep s.kernel cpu now sleepTime).map fun kernel =>
        { kernel, parking := Function.update s.parking cpu true }
  | .unsleep first second => some { s with kernel := unsleep s.kernel first second }
  | .pendSv cpu sp => some { s with kernel := pendSvHandler s.kernel cpu sp }

def step (s : Cores Sem) (part : Section Sem) : Option (Cores Sem) :=
  if Enabled s part then perform s part else none

def Start (layout : Layout Sem) (s : Cores Sem) : Prop :=
  (∃ m, Reaches (Serialized.step layout) (Serialized.Guard layout) (PowerOn layout) m ∧
    s.kernel = m.kernel) ∧ s.parking = fun _ => false

variable {layout : Layout Sem} {slots : Slots} {s s' : Cores Sem} {q q' : Queues Sem}

section Plain
omit [DecidableEq Sem]

/-- `schedule()` on core `cpu` drops no thread it selected and has not switched
to. -/
def SwitchTaken (k : Kernel Sem) (cpu : Core) : Prop :=
  k.pendSv cpu = true → k.nextRunPt cpu = k.idleThread cpu ∨ k.nextRunPt cpu = k.runPt cpu

/-- The other core has given its thread back and not left it yet, and neither a
waiting thread nor core `cpu`'s own is more urgent. -/
def Exposed (k : Kernel Sem) (cpu : Core) : Prop :=
  k.state (k.runPt cpu.other) = .active ∧
    (∀ p < k.priority (k.runPt cpu.other), k.activePriorityCount p = 0) ∧
      (k.state (k.runPt cpu) = .running → k.priority (k.runPt cpu.other) ≤ k.priority (k.runPt cpu))

/-- `sched_block` and `sleep` park `RunPt`. In a handler that may be the idle thread,
one that is parked already or one in whose place `schedule()` has selected another. -/
def ParksCurrent (s : Cores Sem) : Section Sem → Prop
  | .schedBlock cpu _ => Current s cpu
  | .sleep cpu _ _ => Current s cpu
  | _ => True

def Guard (s : Cores Sem) : Section Sem → Prop
  | .schedule cpu _ => SwitchTaken s.kernel cpu ∧ ¬ Exposed s.kernel cpu
  | part => ParksCurrent s part

instance (k : Kernel Sem) (cpu : Core) : Decidable (SwitchTaken k cpu) :=
  inferInstanceAs (Decidable (_ → _ ∨ _))

instance (k : Kernel Sem) (cpu : Core) : Decidable (Exposed k cpu) :=
  inferInstanceAs (Decidable (_ ∧ (∀ p < _, _) ∧ (_ → _)))

instance (s : Cores Sem) (part : Section Sem) : Decidable (ParksCurrent s part) :=
  match part with
  | .schedBlock cpu _ | .sleep cpu _ _ => inferInstanceAs (Decidable (Current s cpu))
  | .schedule _ _ | .schedUnblock _ _ | .unsleep _ _ | .pendSv _ _ =>
      inferInstanceAs (Decidable True)

instance (s : Cores Sem) (part : Section Sem) : Decidable (Guard s part) :=
  match part with
  | .schedule _ _ => inferInstanceAs (Decidable (_ ∧ _))
  | .schedBlock cpu _ | .sleep cpu _ _ => inferInstanceAs (Decidable (Current s cpu))
  | .schedUnblock _ _ | .unsleep _ _ | .pendSv _ _ => inferInstanceAs (Decidable True)

theorem Guard.parks {part : Section Sem} (guarded : Guard s part) : ParksCurrent s part := by
  cases part with
  | schedule cpu times => trivial
  | schedBlock cpu sem | schedUnblock cpu sem | sleep cpu now sleepTime | unsleep first second
  | pendSv cpu sp => exact guarded

def SwitchesSafe (s : Cores Sem) : Prop :=
  ∀ c, s.kernel.pendSv c = true → s.kernel.nextRunPt c ≠ s.kernel.idleThread c →
    s.kernel.nextRunPt c ≠ s.kernel.runPt c.other

/-! The invariant -/

structure Idles (k : Kernel Sem) (q : Queues Sem) : Prop where
  tcb : ∀ c, k.idleThread c ≠ null → IdleTcb k q (k.idleThread c)
  apart : ∀ c d, k.idleThread c ≠ null → k.idleThread c = k.idleThread d → c = d
  level : ∀ c, k.idleThread c ≠ null → k.activePriorityCount idlePriority = 1

structure Inv (slots : Slots) (s : Cores Sem) (q : Queues Sem) : Prop where
  rep : Rep slots s.kernel.toShared q
  idles : Idles s.kernel q
  off : ∀ c, s.kernel.runPt c = null → q.running c = null ∧ s.kernel.pendSv c = false
  on : ∀ c, s.kernel.runPt c ≠ null → s.kernel.idleThread c ≠ null
  known : ∀ c, s.kernel.runPt c ≠ null →
    s.kernel.runPt c = s.kernel.idleThread c ∨ q.place (s.kernel.runPt c) ≠ .gone
  -- the thread of a core is not the one the other core is still to leave
  foreign : ∀ c d, c ≠ d → q.running c ≠ null → q.running c ≠ s.kernel.runPt d
  apart : ∀ c d, c ≠ d → NonIdle s.kernel c → s.kernel.runPt c ≠ s.kernel.runPt d
  executing : ∀ c, s.kernel.runPt c ≠ null → s.kernel.pendSv c = false → s.parking c = false →
    s.kernel.runPt c = assigned s.kernel q c
  parked : ∀ c, s.parking c = true → q.running c = null
  pending : ∀ c, s.kernel.pendSv c = true → s.parking c = false →
    s.kernel.nextRunPt c = assigned s.kernel q c
  returning : ∀ c, s.kernel.pendSv c = true → s.parking c = true →
    s.kernel.nextRunPt c = s.kernel.runPt c

theorem Idles.moved {k k' : Kernel Sem} (idles : Idles k q)
    (alive : ∀ x, q'.place x = .gone ↔ q.place x = .gone)
    (unlinked : ∀ x, q.place x = .gone → k'.state x = k.state x) (priority : k'.priority = k.priority)
    (idleThread : k'.idleThread = k.idleThread)
    (level : k'.activePriorityCount idlePriority = k.activePriorityCount idlePriority) :
    Idles k' q' := by
  constructor
  · intro c there
    rw [idleThread] at there ⊢
    obtain ⟨gone, state, rank⟩ := idles.tcb c there
    exact ⟨(alive _).mpr gone, by rw [unlinked _ gone, state], by rw [priority, rank]⟩
  · rw [idleThread]
    exact idles.apart
  · rw [idleThread, level]
    exact idles.level

theorem Idles.not_given {k : Kernel Sem} (idles : Idles k q) (rep : Rep slots k.toShared q)
    {c d : Core} (on : k.idleThread c ≠ null) (given : q.running d ≠ null) :
    q.running d ≠ k.idleThread c := by
  intro same
  have here := (rep.given given).2
  rw [same, (idles.tcb c on).gone] at here
  cases here

theorem assigned_idle {k : Kernel Sem} {c : Core} (rep : Rep slots k.toShared q) (idles : Idles k q)
    (on : k.idleThread c ≠ null) (idle : assigned k q c = k.idleThread c) : q.running c = null := by
  by_contra given
  rw [assigned, if_neg given] at idle
  exact idles.not_given rep on given idle

structure Frame (slots : Slots) (s : Cores Sem) (q : Queues Sem) : Prop where
  rep : Rep slots s.kernel.toShared q
  idles : Idles s.kernel q
  off : ∀ c, s.kernel.runPt c = null → q.running c = null ∧ s.kernel.pendSv c = false
  on : ∀ c, s.kernel.runPt c ≠ null → s.kernel.idleThread c ≠ null
  linked : ∀ c, s.kernel.runPt c ≠ null → s.kernel.state (s.kernel.runPt c) = .running →
    q.place (s.kernel.runPt c) ≠ .gone
  executing : ∀ c, s.kernel.runPt c ≠ null → s.kernel.pendSv c = false → s.parking c = false →
    s.kernel.runPt c = assigned s.kernel q c
  parked : ∀ c, s.parking c = true → q.running c = null
  pending : ∀ c, s.kernel.pendSv c = true → s.parking c = false →
    s.kernel.nextRunPt c = assigned s.kernel q c
  -- a handler has parked the thread that `schedule()` had just selected once more
  returning : ∀ c, s.kernel.pendSv c = true → s.parking c = true →
    s.kernel.nextRunPt c = s.kernel.runPt c

theorem Inv.frame (inv : Inv slots s q) : Frame slots s q := by
  refine { inv with linked := ?_ }
  intro c started runs
  rcases inv.known c started with idle | linked
  · rw [idle, (inv.idles.tcb c (inv.on c started)).state] at runs
    exact nomatch runs
  · exact linked

theorem Frame.inv (frame : Frame slots s q)
    (known : ∀ c, s.kernel.runPt c ≠ null →
      s.kernel.runPt c = s.kernel.idleThread c ∨ q.place (s.kernel.runPt c) ≠ .gone)
    (foreign : ∀ c d, c ≠ d → q.running c ≠ null → q.running c ≠ s.kernel.runPt d)
    (apart : ∀ c d, c ≠ d → NonIdle s.kernel c → s.kernel.runPt c ≠ s.kernel.runPt d) :
    Inv slots s q :=
  { frame with known, foreign, apart }

theorem Frame.settled (frame : Frame slots s q) {c : Core} (started : s.kernel.runPt c ≠ null)
    (taken : SwitchTaken s.kernel c) : q.running c = null ∨ q.running c = s.kernel.runPt c := by
  have on := frame.on c started
  cases parking : s.parking c with
  | true => exact Or.inl (frame.parked c parking)
  | false =>
      cases pending : s.kernel.pendSv c with
      | true =>
          have next := frame.pending c pending parking
          rcases taken pending with idle | same
          · exact Or.inl (assigned_idle frame.rep frame.idles on (next.symm.trans idle))
          · by_cases free : q.running c = null
            · exact Or.inl free
            · rw [same, assigned, if_neg free] at next
              exact Or.inr next.symm
      | false =>
          have same := frame.executing c started pending parking
          by_cases free : q.running c = null
          · exact Or.inl free
          · rw [assigned, if_neg free] at same
            exact Or.inr same.symm

theorem Frame.own (frame : Frame slots s q) {c : Core} (started : s.kernel.runPt c ≠ null)
    (settled : q.running c = null ∨ q.running c = s.kernel.runPt c)
    (apart : s.kernel.state (s.kernel.runPt c) = .running →
      ∀ d, d ≠ c → q.running d ≠ null → q.running d ≠ s.kernel.runPt c) : Own s.kernel q c := by
  by_cases runs : s.kernel.state (s.kernel.runPt c) = .running
  · rw [Own, if_pos runs]
    obtain ⟨d, given⟩ := (frame.rep.runs_iff (frame.linked c started runs)).mp runs
    by_cases this : d = c
    · rwa [this] at given
    · exact absurd given (apart runs d this (by rwa [given]))
  · rw [Own, if_neg runs]
    rcases settled with free | given
    · exact free
    · have busy := (frame.rep.given (by rwa [given])).1
      rw [given] at busy
      exact absurd busy runs

structure SameCores (k k' : Kernel Sem) : Prop where
  runPt : k'.runPt = k.runPt
  nextRunPt : k'.nextRunPt = k.nextRunPt
  idleThread : k'.idleThread = k.idleThread
  pendSv : k'.pendSv = k.pendSv

theorem Frame.moved (frame : Frame slots s q) {k : Kernel Sem}
    (moved : Moved slots s.kernel.toShared k.toShared q q') (cores : SameCores s.kernel k)
    (running : q'.running = q.running) : Frame slots { s with kernel := k } q' := by
  obtain ⟨runPt, nextRunPt, idleThread, pendSv⟩ := cores
  have same (c : Core) : assigned k q' c = assigned s.kernel q c := by
    simp only [assigned, idleThread, running]
  constructor
  · exact moved.rep
  · exact frame.idles.moved moved.alive moved.unlinked moved.priority idleThread moved.idleLevel
  · simp only [runPt, running, pendSv]
    exact frame.off
  · simp only [runPt, idleThread]
    exact frame.on
  · simp only [runPt, ne_eq, moved.alive]
    intro c started runs gone
    rw [moved.unlinked _ gone] at runs
    exact frame.linked c started runs gone
  · simp only [runPt, pendSv, same]
    exact frame.executing
  · simp only [running]
    exact frame.parked
  · simp only [pendSv, nextRunPt, same]
    exact frame.pending
  · simp only [pendSv, nextRunPt, runPt]
    exact frame.returning

theorem Inv.moved (inv : Inv slots s q) {k : Kernel Sem}
    (moved : Moved slots s.kernel.toShared k.toShared q q') (cores : SameCores s.kernel k)
    (running : q'.running = q.running) : Inv slots { s with kernel := k } q' := by
  apply (inv.frame.moved moved cores running).inv
  · simp only [cores.runPt, cores.idleThread, ne_eq, moved.alive]
    exact inv.known
  · simp only [cores.runPt, running]
    exact inv.foreign
  · simp only [NonIdle, cores.runPt, cores.idleThread]
    exact inv.apart

theorem Frame.current (frame : Frame slots s q) {c : Core} (current : Current s c) :
    q.running c = s.kernel.runPt c ∧ s.kernel.state (s.kernel.runPt c) = .running ∧
      q.place (s.kernel.runPt c) = .ready (s.kernel.priority (s.kernel.runPt c)) := by
  obtain ⟨⟨started, busy⟩, again, outside⟩ := current
  have same : s.kernel.runPt c = assigned s.kernel q c := by
    cases waits : s.kernel.pendSv c with
    | true => exact (again waits).symm.trans (frame.pending c waits outside)
    | false => exact frame.executing c started waits outside
  have given : q.running c ≠ null := by
    intro free
    rw [assigned, if_pos free] at same
    exact busy same
  rw [assigned, if_neg given] at same
  rw [same]
  exact ⟨rfl, frame.rep.given given⟩

theorem Frame.given_up (frame : Frame slots s q) {c : Core} (current : Current s c)
    {k : Kernel Sem} (rep : Rep slots k.toShared q') (idles : Idles k q')
    (linked : ∀ d, s.kernel.runPt d ≠ null → k.state (s.kernel.runPt d) = .running →
      q'.place (s.kernel.runPt d) ≠ .gone)
    (free : q'.running c = null) (kept : ∀ d, d ≠ c → q'.running d = q.running d)
    (cores : SameCores s.kernel k) : Frame slots ⟨k, Function.update s.parking c true⟩ q' := by
  obtain ⟨runPt, nextRunPt, idleThread, pendSv⟩ := cores
  have same (d : Core) (other : d ≠ c) : assigned k q' d = assigned s.kernel q d := by
    simp only [assigned, idleThread, kept d other]
  constructor
  · exact rep
  · exact idles
  · intro d off
    simp only [runPt, pendSv] at off ⊢
    have other : d ≠ c := by
      rintro rfl
      exact current.1.1 off
    exact ⟨(kept d other).trans (frame.off d off).1, (frame.off d off).2⟩
  · simp only [runPt, idleThread]
    exact frame.on
  · simp only [runPt]
    exact linked
  · intro d there idle outside
    have other : d ≠ c := by
      rintro rfl
      simp at outside
    simp only [Function.update_of_ne other, runPt, pendSv] at there idle outside ⊢
    exact (frame.executing d there idle outside).trans (same d other).symm
  · intro d parks
    by_cases this : d = c
    · rw [this]
      exact free
    · simp only [Function.update_of_ne this] at parks
      exact (kept d this).trans (frame.parked d parks)
  · intro d waits outside
    have other : d ≠ c := by
      rintro rfl
      simp at outside
    simp only [Function.update_of_ne other, pendSv, nextRunPt] at waits outside ⊢
    exact (frame.pending d waits outside).trans (same d other).symm
  · intro d waits parks
    simp only [pendSv, nextRunPt, runPt] at waits ⊢
    by_cases this : d = c
    · rw [this] at waits ⊢
      exact current.2.1 waits
    · simp only [Function.update_of_ne this] at parks
      exact frame.returning d waits parks

theorem Frame.others_keep (frame : Frame slots s q) {c : Core} (current : Current s c) {d : Core}
    (other : d ≠ c) : q.running d ≠ s.kernel.runPt c := by
  intro same
  have given := (frame.current current).1
  exact other (frame.rep.listed.apart c d (by rw [given]; exact current.1.1)
    (given.trans same.symm)).symm

end Plain

theorem Frame.park (frame : Frame slots s q) {c : Core} (current : Current s c) {spot : Place Sem}
    {key : Nat → Nat} {k : Kernel Sem}
    (moved : Moved slots s.kernel.toShared k.toShared q
      (q.park (s.kernel.runPt c) (s.kernel.priority (s.kernel.runPt c)) spot key))
    (cores : SameCores s.kernel k) :
    Frame slots ⟨k, Function.update s.parking c true⟩
      (q.park (s.kernel.runPt c) (s.kernel.priority (s.kernel.runPt c)) spot key) := by
  refine frame.given_up current moved.rep
    (frame.idles.moved moved.alive moved.unlinked moved.priority cores.idleThread moved.idleLevel)
    ?_ (if_pos (frame.current current).1)
    (fun d other => if_neg (frame.others_keep current other)) cores
  intro d started runs
  rw [ne_eq, moved.alive]
  intro gone
  rw [moved.unlinked _ gone] at runs
  exact frame.linked d started runs gone

theorem Inv.park (inv : Inv slots s q) {c : Core} (current : Current s c) {spot : Place Sem}
    {key : Nat → Nat} {k : Kernel Sem}
    (moved : Moved slots s.kernel.toShared k.toShared q
      (q.park (s.kernel.runPt c) (s.kernel.priority (s.kernel.runPt c)) spot key))
    (cores : SameCores s.kernel k) :
    Inv slots ⟨k, Function.update s.parking c true⟩
      (q.park (s.kernel.runPt c) (s.kernel.priority (s.kernel.runPt c)) spot key) := by
  have given := (inv.frame.current current).1
  apply (inv.frame.park current moved cores).inv
  · simp only [cores.runPt, cores.idleThread, ne_eq, moved.alive]
    exact inv.known
  · simp only [cores.runPt]
    intro d e apart busy
    have other : d ≠ c := by
      rintro rfl
      exact busy (if_pos given)
    have kept : (q.park (s.kernel.runPt c) (s.kernel.priority (s.kernel.runPt c)) spot key).running d
        = q.running d := if_neg (inv.frame.others_keep current other)
    rw [kept] at busy ⊢
    exact inv.foreign d e apart busy
  · simp only [NonIdle, cores.runPt, cores.idleThread]
    exact inv.apart

theorem Frame.schedule (frame : Frame slots s q) {c : Core} (times : Readings)
    (started : s.kernel.runPt c ≠ null) (own : Own s.kernel q c) :
    ∃ k q', Scheduler.schedule s.kernel c times = some k ∧
      Scheduled slots s.kernel k q q' c ∧
      DispatchOk (q.place · ≠ .gone) (settle s.kernel c times.exitIdle) c (k.nextRunPt c) ∧
      Frame slots ⟨k, Function.update s.parking c false⟩ q' := by
  have on := frame.on c started
  obtain ⟨k, q', answer, scheduled, chosen⟩ := schedule_spec times frame.rep own started
    (by rw [frame.idles.level c on]; exact Nat.one_ne_zero)
  have tasks := scheduled.tasks
  have next : k.nextRunPt c = assigned k q' c := by
    rw [scheduled.next, Function.update_self, assigned, tasks.idleThread]
  have same (d : Core) (other : d ≠ c) : assigned k q' d = assigned s.kernel q d := by
    simp only [assigned, tasks.idleThread, scheduled.others d other]
  refine ⟨k, q', answer, scheduled, chosen, ?_⟩
  constructor
  · exact scheduled.rep
  · exact frame.idles.moved (fun x => by rw [scheduled.place]) scheduled.unlinked
      tasks.priority tasks.idleThread tasks.idleLevel
  · intro d off
    simp only [tasks.runPt] at off
    have other : d ≠ c := by
      rintro rfl
      exact started off
    simp only [scheduled.others d other, scheduled.pending, Function.update_of_ne other]
    exact frame.off d off
  · simp only [tasks.runPt, tasks.idleThread]
    exact frame.on
  · simp only [tasks.runPt, scheduled.place]
    intro d there runs gone
    rw [scheduled.unlinked _ gone] at runs
    exact frame.linked d there runs gone
  · intro d there idle outside
    have other : d ≠ c := by
      rintro rfl
      simp [scheduled.pending] at idle
    simp only [Function.update_of_ne other, tasks.runPt, scheduled.pending] at there idle outside ⊢
    exact (frame.executing d there idle outside).trans (same d other).symm
  · intro d parks
    have other : d ≠ c := by
      rintro rfl
      simp at parks
    simp only [Function.update_of_ne other] at parks
    rw [scheduled.others d other]
    exact frame.parked d parks
  · intro d waits outside
    by_cases this : d = c
    · rw [this]
      exact next
    · simp only [scheduled.pending, Function.update_of_ne this] at waits outside
      simp only [scheduled.next, Function.update_of_ne this]
      exact (frame.pending d waits outside).trans (same d this).symm
  · intro d waits parks
    have other : d ≠ c := by
      rintro rfl
      simp at parks
    simp only [scheduled.pending, scheduled.next, tasks.runPt,
      Function.update_of_ne other] at waits parks ⊢
    exact frame.returning d waits parks

omit [DecidableEq Sem] in
/-- What `schedule()` on core `c` may take is not what the other core has to save. -/
theorem Inv.unexposed (inv : Inv slots s q) {c : Core} (started : s.kernel.runPt c ≠ null)
    (own : Own s.kernel q c) (hidden : ¬ Exposed s.kernel c) {now : Nat}
    (live : q.place (s.kernel.runPt c.other) ≠ .gone)
    (waits : (settle s.kernel c now).state (s.kernel.runPt c.other) = .active)
    (best : ∀ t, q.place t ≠ .gone → (settle s.kernel c now).state t = .active →
      s.kernel.priority (s.kernel.runPt c.other) ≤ s.kernel.priority t) : False := by
  have active : s.kernel.state (s.kernel.runPt c.other) = .active := by
    rcases (settle_active s.kernel c now _).mp waits with active | ⟨same, runs⟩
    · exact active
    · -- a thread that runs is that of one core only
      rw [← same] at runs
      rw [Own, if_pos runs] at own
      exact absurd (own.trans same) (inv.foreign c c.other (Core.other_ne c).symm (by rwa [own]))
  apply hidden
  refine ⟨active, ?_, ?_⟩
  · intro p below
    by_contra some_active
    obtain ⟨t, here, waiting⟩ :=
      active_count inv.rep (below.trans (live_active inv.rep live active).1) some_active
    have first := best t (by simp [here]) ((settle_active s.kernel c now t).mpr (Or.inl waiting))
    rw [(inv.rep.fits here).1] at first
    exact absurd below (Nat.not_lt.mpr first)
  · intro runs
    have here := (current_ready inv.rep own started runs).2.1
    exact best _ (by simp [here]) ((settle_active s.kernel c now _).mpr (Or.inr ⟨rfl, runs⟩))

/-- The section of `schedule()`, with the other core's thread saved or not the best. -/
theorem Inv.schedule (inv : Inv slots s q) {c : Core} (times : Readings)
    (started : s.kernel.runPt c ≠ null) (taken : SwitchTaken s.kernel c)
    (hidden : ¬ Exposed s.kernel c) :
    ∃ k q', Scheduler.schedule s.kernel c times = some k ∧
      Inv slots ⟨k, Function.update s.parking c false⟩ q' := by
  have on := inv.on c started
  have own := inv.frame.own started (inv.frame.settled started taken)
    fun _ d other given => inv.foreign d c other given
  obtain ⟨k, q', answer, scheduled, chosen, frame⟩ := inv.frame.schedule times started own
  have tasks := scheduled.tasks
  have settled := (settle_tasks times.exitIdle inv.rep own started).1
  have safe (given : q'.running c ≠ null) : q'.running c ≠ s.kernel.runPt c.other := by
    have next : k.nextRunPt c = q'.running c :=
      (frame.pending c (by rw [scheduled.pending, Function.update_self])
        (Function.update_self _ _ _)).trans (if_neg given)
    intro same
    rw [next] at chosen
    by_cases waiting : ∃ t, q.place t ≠ .gone ∧ (settle s.kernel c times.exitIdle).state t = .active
    · obtain ⟨live, waits, best⟩ := chosen.choice waiting
      rw [same] at live waits best
      rw [settled.priority] at best
      exact inv.unexposed started own hidden live waits best
    · -- an idle thread is on no list, so it is not what a core has been given
      have idle := chosen.idle waiting
      rw [settled.idleThread, ← tasks.idleThread] at idle
      exact frame.idles.not_given frame.rep (frame.on c (by rwa [tasks.runPt])) given idle
  refine ⟨k, q', answer, frame.inv ?_ ?_ ?_⟩
  · simp only [tasks.runPt, tasks.idleThread, scheduled.place]
    exact inv.known
  · intro d e apart busy
    simp only [tasks.runPt]
    by_cases this : d = c
    · subst this
      rw [Core.eq_of_ne apart.symm (Core.other_ne d)]
      exact safe busy
    · rw [scheduled.others d this] at busy ⊢
      exact inv.foreign d e apart busy
  · simp only [NonIdle, tasks.runPt, tasks.idleThread]
    exact inv.apart

omit [DecidableEq Sem] in
theorem Frame.started (frame : Frame slots s q) {c : Core} (waits : s.kernel.pendSv c = true) :
    s.kernel.runPt c ≠ null := by
  intro off
  rw [(frame.off c off).2] at waits
  cases waits

omit [DecidableEq Sem] in
/-- What a pending switch is to: what the scheduler has given the core, or its own thread
if a handler has parked it since. -/
theorem Frame.next_cases (frame : Frame slots s q) {c : Core} (waits : s.kernel.pendSv c = true) :
    s.kernel.nextRunPt c = assigned s.kernel q c ∨
      (q.running c = null ∧ s.kernel.nextRunPt c = s.kernel.runPt c) := by
  cases parks : s.parking c with
  | true => exact Or.inr ⟨frame.parked c parks, frame.returning c waits parks⟩
  | false => exact Or.inl (frame.pending c waits parks)

omit [DecidableEq Sem] in
theorem Frame.switch (frame : Frame slots s q) {c : Core} (waits : s.kernel.pendSv c = true)
    (sp : Nat) : Frame slots { s with kernel := pendSvHandler s.kernel c sp } q := by
  have started := frame.started waits
  have on := frame.on c started
  have present : s.kernel.nextRunPt c ≠ null := by
    rcases frame.next_cases waits with next | ⟨_, again⟩
    · rw [next]
      exact assigned_ne_null on
    · rwa [again]
  have linked (runs : s.kernel.state (s.kernel.nextRunPt c) = .running) :
      q.place (s.kernel.nextRunPt c) ≠ .gone := by
    rcases frame.next_cases waits with next | ⟨_, again⟩
    · rw [next] at runs ⊢
      by_cases free : q.running c = null
      · rw [assigned, if_pos free, (frame.idles.tcb c on).state] at runs
        cases runs
      · rw [assigned, if_neg free, (frame.rep.given free).2]
        simp
    · rw [again] at runs ⊢
      exact frame.linked c started runs
  -- only core `c` changes its thread
  constructor
  · exact frame.rep
  · exact ⟨fun d there => ⟨(frame.idles.tcb d there).gone, (frame.idles.tcb d there).state,
      (frame.idles.tcb d there).priority⟩, frame.idles.apart, frame.idles.level⟩
  · intro d off
    by_cases this : d = c
    · subst this
      simp only [pendSvHandler, Function.update_self] at off
      exact absurd off present
    · simp only [pendSvHandler, Function.update_of_ne this] at off ⊢
      exact frame.off d off
  · intro d there
    by_cases this : d = c
    · rw [this]
      exact on
    · simp only [pendSvHandler, Function.update_of_ne this] at there
      exact frame.on d there
  · intro d there runs
    by_cases this : d = c
    · subst this
      simp only [pendSvHandler, Function.update_self] at runs ⊢
      exact linked runs
    · simp only [pendSvHandler, Function.update_of_ne this] at there runs ⊢
      exact frame.linked d there runs
  · intro d there idle outside
    by_cases this : d = c
    · subst this
      simp only [pendSvHandler, Function.update_self]
      exact frame.pending d waits outside
    · simp only [pendSvHandler, Function.update_of_ne this] at there idle ⊢
      exact frame.executing d there idle outside
  · exact frame.parked
  · intro d still outside
    have other : d ≠ c := by
      rintro rfl
      simp [pendSvHandler] at still
    simp only [pendSvHandler, Function.update_of_ne other] at still ⊢
    exact frame.pending d still outside
  · intro d still parks
    have other : d ≠ c := by
      rintro rfl
      simp [pendSvHandler] at still
    simp only [pendSvHandler, Function.update_of_ne other] at still ⊢
    exact frame.returning d still parks

omit [DecidableEq Sem] in
/-- The thread a core switches to is not the other core's. -/
theorem Inv.next_apart (inv : Inv slots s q) {c d : Core} (other : c ≠ d)
    (waits : s.kernel.pendSv c = true) (busy : s.kernel.nextRunPt c ≠ s.kernel.idleThread c) :
    s.kernel.nextRunPt c ≠ s.kernel.runPt d := by
  rcases inv.frame.next_cases waits with next | ⟨_, again⟩
  · rw [next] at busy ⊢
    have given : q.running c ≠ null := fun free => busy (if_pos free)
    rw [assigned, if_neg given]
    exact inv.foreign c d other given
  · rw [again] at busy ⊢
    exact inv.apart c d other ⟨inv.frame.started waits, busy⟩

omit [DecidableEq Sem] in
theorem Inv.switch (inv : Inv slots s q) {c : Core} (waits : s.kernel.pendSv c = true) (sp : Nat) :
    Inv slots { s with kernel := pendSvHandler s.kernel c sp } q := by
  have started := inv.frame.started waits
  have on := inv.on c started
  have known : s.kernel.nextRunPt c = s.kernel.idleThread c ∨
      q.place (s.kernel.nextRunPt c) ≠ .gone := by
    rcases inv.frame.next_cases waits with next | ⟨_, again⟩
    · rw [next, assigned]
      by_cases free : q.running c = null
      · exact Or.inl (if_pos free)
      · right
        rw [if_neg free, (inv.rep.given free).2]
        simp
    · rw [again]
      exact inv.known c started
  apply (inv.frame.switch waits sp).inv
  · intro d there
    by_cases this : d = c
    · subst this
      simp only [pendSvHandler, Function.update_self]
      exact known
    · simp only [pendSvHandler, Function.update_of_ne this] at there ⊢
      exact inv.known d there
  · intro d e apart busy
    -- the switch changes `RunPt` of `c` to what `c` was given, which no other core was
    by_cases this : e = c
    · subst this
      simp only [pendSvHandler, Function.update_self]
      rcases inv.frame.next_cases waits with next | ⟨_, again⟩
      · rw [next]
        by_cases free : q.running e = null
        · rw [assigned, if_pos free]
          exact inv.idles.not_given inv.rep on busy
        · rw [assigned, if_neg free]
          exact fun same => apart (inv.rep.listed.apart d e busy same)
      · rw [again]
        exact inv.foreign d e apart busy
    · simp only [pendSvHandler, Function.update_of_ne this]
      exact inv.foreign d e apart busy
  · intro d e other busy
    simp only [NonIdle, pendSvHandler] at busy ⊢
    by_cases this : d = c
    · subst this
      simp only [Function.update_self, Function.update_of_ne other.symm] at busy ⊢
      exact inv.next_apart other waits busy.2
    · simp only [Function.update_of_ne this] at busy ⊢
      by_cases that : e = c
      · subst that
        simp only [Function.update_self]
        intro same
        by_cases idle : s.kernel.nextRunPt e = s.kernel.idleThread e
        · -- the idle thread of `e` is on no list and not that of `d`
          rcases inv.known d busy.1 with own | live
          · exact busy.2 own
          · exact live (by rw [same, idle, (inv.idles.tcb e on).gone])
        · exact inv.next_apart other.symm waits idle same.symm
      · simp only [Function.update_of_ne that]
        exact inv.apart d e other busy

inductive Moves (slots : Slots) (s : Cores Sem) (q : Queues Sem) : Cores Sem → Queues Sem → Prop
  | park {c : Core} {spot : Place Sem} {key : Nat → Nat} {k : Kernel Sem} (current : Current s c)
      (moved : Moved slots s.kernel.toShared k.toShared q
        (q.park (s.kernel.runPt c) (s.kernel.priority (s.kernel.runPt c)) spot key))
      (cores : SameCores s.kernel k) :
      Moves slots s q ⟨k, Function.update s.parking c true⟩
        (q.park (s.kernel.runPt c) (s.kernel.priority (s.kernel.runPt c)) spot key)
  | wake {k : Kernel Sem} {q' : Queues Sem}
      (moved : Moved slots s.kernel.toShared k.toShared q q') (cores : SameCores s.kernel k)
      (running : q'.running = q.running) : Moves slots s q { s with kernel := k } q'
  | nothing : Moves slots s q s q

/-- What a section is. -/
theorem Frame.perform_cases (frame : Frame slots s q) {part : Section Sem}
    (enabled : Enabled s part) (parks : ParksCurrent s part)
    (performed : ContextSwitch.perform s part = some s') :
    (∃ cpu times, part = .schedule cpu times) ∨ (∃ cpu sp, part = .pendSv cpu sp) ∨
      ∃ q', Moves slots s q s' q' := by
  cases part with
  | schedule cpu times => exact Or.inl ⟨cpu, times, rfl⟩
  | schedBlock cpu sem =>
      obtain ⟨_, runs, here⟩ := frame.current parks
      obtain ⟨shared, answer, _, moved⟩ := schedBlock_moved frame.rep here runs sem
      simp only [ContextSwitch.perform, answer, Option.map_some, Option.some.injEq] at performed
      subst performed
      exact Or.inr (Or.inr ⟨_, .park parks moved ⟨rfl, rfl, rfl, rfl⟩⟩)
  | schedUnblock cpu sem =>
      obtain ⟨t, rest, nodes, _, here⟩ := waiters_cons frame.rep enabled.1.2
      obtain ⟨answer, moved⟩ := schedUnblock_moved frame.rep cpu nodes
      simp only [ContextSwitch.perform, answer, Option.map_some, Option.some.injEq] at performed
      subst performed
      exact Or.inr (Or.inr ⟨_, .wake moved ⟨rfl, rfl, rfl, rfl⟩
        (wake_running frame.rep here (by simp) (by simp))⟩)
  | sleep cpu now sleepTime =>
      obtain ⟨_, runs, here⟩ := frame.current parks
      obtain ⟨shared, alarm, answer, _, moved⟩ := sleep_moved frame.rep here runs now sleepTime
      simp only [ContextSwitch.perform, answer, Option.map_some, Option.some.injEq] at performed
      subst performed
      exact Or.inr (Or.inr ⟨_, .park parks moved ⟨rfl, rfl, rfl, rfl⟩⟩)
  | unsleep first second =>
      simp only [ContextSwitch.perform, Option.some.injEq] at performed
      subst performed
      obtain ⟨runPt, nextRunPt, idleThread, pendSv, _⟩ := unsleep_local s.kernel first second
      rcases unsleep_moved frame.rep first second with ⟨_, unchanged⟩ | ⟨t, rest, _, here, _, moved⟩
      · rw [unchanged]
        exact Or.inr (Or.inr ⟨q, .nothing⟩)
      · exact Or.inr (Or.inr ⟨_, .wake moved ⟨runPt, nextRunPt, idleThread, pendSv⟩
          (wake_running frame.rep here (by simp) (by simp))⟩)
  | pendSv cpu sp => exact Or.inr (Or.inl ⟨cpu, sp, rfl⟩)

theorem Frame.perform (frame : Frame slots s q) {part : Section Sem} (enabled : Enabled s part)
    (parks : ParksCurrent s part)
    (own : ∀ cpu times, part = .schedule cpu times → Own s.kernel q cpu)
    (performed : ContextSwitch.perform s part = some s') :
    ∃ q', Frame slots s' q' ∧ (∀ x, q'.place x = .gone ↔ q.place x = .gone) ∧
      ∀ x, q.place x = .gone → s'.kernel.state x = s.kernel.state x := by
  rcases frame.perform_cases enabled parks performed with
    ⟨cpu, times, rfl⟩ | ⟨cpu, sp, rfl⟩ | ⟨q', moves⟩
  · obtain ⟨k, q', answer, scheduled, _, after⟩ :=
      frame.schedule times enabled.1 (own cpu times rfl)
    simp only [ContextSwitch.perform, answer, Option.map_some, Option.some.injEq] at performed
    subst performed
    exact ⟨q', after, fun x => by rw [scheduled.place], scheduled.unlinked⟩
  · simp only [ContextSwitch.perform, Option.some.injEq] at performed
    subst performed
    exact ⟨q, frame.switch enabled sp, fun _ => Iff.rfl, fun _ _ => rfl⟩
  · cases moves with
    | park current moved cores =>
        exact ⟨_, frame.park current moved cores, moved.alive, moved.unlinked⟩
    | wake moved cores running =>
        exact ⟨_, frame.moved moved cores running, moved.alive, moved.unlinked⟩
    | nothing => exact ⟨q, frame, fun _ => Iff.rfl, fun _ _ => rfl⟩

omit [DecidableEq Sem] in
theorem Inv.switches_safe (inv : Inv slots s q) : SwitchesSafe s := by
  intro c waits busy
  exact inv.next_apart (Core.other_ne c).symm waits busy

theorem inv_step (inv : Inv slots s q) {part : Section Sem} (guarded : Guard s part)
    (stepped : step s part = some s') : ∃ q', Inv slots s' q' := by
  by_cases enabled : Enabled s part
  · rw [step, if_pos enabled] at stepped
    rcases inv.frame.perform_cases enabled guarded.parks stepped with
      ⟨cpu, times, rfl⟩ | ⟨cpu, sp, rfl⟩ | ⟨q', moves⟩
    · obtain ⟨k, q', answer, after⟩ := inv.schedule times enabled.1 guarded.1 guarded.2
      simp only [perform, answer, Option.map_some, Option.some.injEq] at stepped
      subst stepped
      exact ⟨q', after⟩
    · simp only [perform, Option.some.injEq] at stepped
      subst stepped
      exact ⟨q, inv.switch enabled sp⟩
    · cases moves with
      | park current moved cores => exact ⟨_, inv.park current moved cores⟩
      | wake moved cores running => exact ⟨_, inv.moved moved cores running⟩
      | nothing => exact ⟨q, inv⟩
  · rw [step, if_neg enabled] at stepped
    exact nomatch stepped

omit [DecidableEq Sem] in
/-- Between two calls of the serialized machine its queues are those of the cores. -/
theorem entry_inv {m : Machine Sem} (inv : Serialized.Inv layout m q) (kernel : s.kernel = m.kernel)
    (parking : s.parking = fun _ => false) : Inv layout.slots s q := by
  have base := inv.base
  obtain ⟨k, waiting⟩ := s
  obtain rfl : k = m.kernel := kernel
  obtain rfl : waiting = fun _ => false := parking
  constructor
  · exact base.rep
  · exact ⟨base.idle, base.idleApart, base.idleLevel⟩
  · intro c off
    rcases inv.current c with ⟨_, _, free⟩ | ⟨on, _⟩
    · exact ⟨free, base.switched c⟩
    · exact absurd off on
  · exact fun c started => (inv.started started).1
  · intro c started
    by_cases busy : m.kernel.runPt c = m.kernel.idleThread c
    · exact Or.inl busy
    · right
      rw [(inv.runs ⟨started, busy⟩).2.2]
      simp
  · intro c d apart given same
    have here := inv.given_current given
    exact apart (inv.current_apart (by rw [here]; exact given) (here.trans same))
  · exact fun c d other busy same => other (inv.current_apart busy.1 same)
  · exact fun c started _ _ => (inv.started started).2
  · exact fun c parks => absurd parks Bool.false_ne_true
  · intro c waits
    rw [base.switched c] at waits
    exact nomatch waits
  · intro c waits
    rw [base.switched c] at waits
    exact nomatch waits

theorem start_inv (start : Start layout s) : ∃ q, Inv layout.slots s q := by
  obtain ⟨⟨m, reached, kernel⟩, parking⟩ := start
  obtain ⟨q, inv⟩ := Serialized.run_inv reached
  exact ⟨q, entry_inv inv kernel parking⟩

/-- Along every run in which no call of `schedule()` finds the other core's thread
exposed or drops one it took before, and no core parks but its current thread, no
switch loads a context that is not saved yet. -/
theorem switches_safe_along_runs (reached : Reaches step Guard (Start layout) s) :
    SwitchesSafe s := by
  obtain ⟨q, inv⟩ := reached.invariant (fun s => ∃ q, Inv layout.slots s q)
    (fun _ start => start_inv start) (by
      rintro before part after ⟨q, inv⟩ guarded stepped
      exact inv_step inv guarded stepped)
  exact inv.switches_safe

/-! Three threads of one level on two cores -/

def boot : List (Call Unit) :=
  [.addThread 1024 1, .addThread 1024 1, .addThread 1024 1, .initScheduler .cpu0,
    .initScheduler .cpu1]

def inTurns : List (Section Unit) :=
  [.schedule .cpu0 readings, .pendSv .cpu0 0, .schedBlock .cpu1 (), .schedule .cpu1 readings,
    .pendSv .cpu1 0, .schedUnblock .cpu0 (), .schedule .cpu0 readings]

theorem switches_safe_along_runs_board :
    ∃ m ∈ exec (Serialized.step board) reset boot,
      ∃ s ∈ exec step ⟨m.kernel, fun _ => false⟩ inTurns,
        s.kernel.pendSv .cpu0 = true ∧ s.kernel.nextRunPt .cpu0 ≠ s.kernel.idleThread .cpu0 ∧
          SwitchesSafe s := by
  obtain ⟨m, booted, s, executed, waits, busy, allowed⟩ :
      ∃ m ∈ exec (Serialized.step board) reset boot,
        ∃ s ∈ exec step ⟨m.kernel, fun _ => false⟩ inTurns,
          s.kernel.pendSv .cpu0 = true ∧ s.kernel.nextRunPt .cpu0 ≠ s.kernel.idleThread .cpu0 ∧
            Allowed step Guard ⟨m.kernel, fun _ => false⟩ inTurns := by
    decide +kernel
  have guarded : Allowed (Serialized.step board) (Serialized.Guard board) reset boot := by
    decide +kernel
  have start : Start board ⟨m.kernel, fun _ => false⟩ :=
    ⟨⟨m, exec_reaches boot (.start reset_powerOn) guarded booted, rfl⟩, rfl⟩
  exact ⟨m, booted, s, executed, waits, busy,
    switches_safe_along_runs (exec_reaches inTurns (.start start) allowed executed)⟩

/-- Core 0 has put its thread back and not switched yet; core 1 selects it. -/
theorem thread_selected_before_saved :
    ∃ s, Reaches step Transition.free (Start board) s ∧ ¬ SwitchesSafe s := by
  obtain ⟨m, booted, s, executed, waits, busy, stale⟩ :
      ∃ m ∈ exec (Serialized.step board) reset boot,
        ∃ s ∈ exec step ⟨m.kernel, fun _ => false⟩
            [.schedule .cpu0 readings, .schedule .cpu1 readings],
          s.kernel.pendSv .cpu1 = true ∧ s.kernel.nextRunPt .cpu1 ≠ s.kernel.idleThread .cpu1 ∧
            s.kernel.nextRunPt .cpu1 = s.kernel.runPt .cpu0 := by
    decide +kernel
  have guarded : Allowed (Serialized.step board) (Serialized.Guard board) reset boot := by
    decide +kernel
  have start : Start board ⟨m.kernel, fun _ => false⟩ :=
    ⟨⟨m, exec_reaches boot (.start reset_powerOn) guarded booted, rfl⟩, rfl⟩
  refine ⟨s, exec_reaches _ (.start start) (allowed_free _ _ _) executed, ?_⟩
  exact fun safe => safe .cpu1 waits busy stale

end MulticoreRtos.ContextSwitch
