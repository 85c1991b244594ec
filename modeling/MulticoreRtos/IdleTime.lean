import MulticoreRtos.SerializedRuns

/-!
The idle time of a core. `schedule()` closes a spell of idling at its start and
opens one at its end, and the first spell of a core that starts idle is opened
by nobody: it counts from the zero in `IdleTimeStart`. The spells are history,
kept from the current threads alone. A reading that a call does not take may
have any value between its neighbours.
-/

namespace MulticoreRtos.IdleTime

open Scheduler Serialized Transition
open Heap (null)

/-! Spells of time, the latest first. -/

structure Spell where
  entered : Nat
  left : Nat
  deriving DecidableEq

structure Record where
  opened : Option Nat
  spells : List Spell
  deriving DecidableEq

def Record.blank : Record := ⟨none, []⟩

def Record.leave (r : Record) (now : Nat) : Record :=
  match r.opened with
  | none => r
  | some entered => ⟨none, ⟨entered, now⟩ :: r.spells⟩

def Record.enter (r : Record) (now : Nat) : Record := { r with opened := some now }

def Record.total (r : Record) : Nat := (r.spells.map fun s => s.left - s.entered).sum

def instantsOf (spells : List Spell) : List Nat := spells.flatMap fun s => [s.left, s.entered]

def Record.instants (r : Record) : List Nat := r.opened.toList ++ instantsOf r.spells

def Record.Ordered (r : Record) (clock : Nat) : Prop :=
  List.Pairwise (· ≥ ·) (clock :: r.instants)

theorem total_le {spells : List Spell} {top : Nat}
    (ordered : List.Pairwise (· ≥ ·) (top :: instantsOf spells)) :
    (spells.map fun s => s.left - s.entered).sum ≤ top := by
  induction spells generalizing top with
  | nil => exact Nat.zero_le _
  | cons s rest ih =>
      simp only [instantsOf, List.flatMap_cons, List.cons_append, List.nil_append] at ordered
      obtain ⟨below, ordered⟩ := List.pairwise_cons.mp ordered
      obtain ⟨within, ordered⟩ := List.pairwise_cons.mp ordered
      have before := ih ordered
      have left : s.left ≤ top := below s.left (by simp)
      have entered : s.entered ≤ s.left := within s.entered (by simp)
      simp only [List.map_cons, List.sum_cons]
      omega

namespace Record
variable {r : Record} {clock now : Nat}

theorem Ordered.later (ordered : r.Ordered clock) (later : clock ≤ now) : r.Ordered now := by
  obtain ⟨below, rest⟩ := List.pairwise_cons.mp ordered
  exact List.pairwise_cons.mpr ⟨fun t member => (below t member).trans later, rest⟩

theorem Ordered.enter (ordered : r.Ordered clock) (closed : r.opened = none) :
    (r.enter clock).Ordered clock := by
  simp only [Ordered, instants, closed, Option.toList_none, List.nil_append] at ordered
  have below := (List.pairwise_cons.mp ordered).1
  exact List.pairwise_cons.mpr ⟨List.forall_mem_cons.mpr ⟨Nat.le_refl _, below⟩, ordered⟩

theorem leave_closed : (r.leave now).opened = none := by
  unfold leave
  split
  next closed => exact closed
  next => rfl

theorem Ordered.leave (ordered : r.Ordered now) : (r.leave now).Ordered now := by
  unfold Record.leave
  split
  next => exact ordered
  next entered opened =>
    simp only [Ordered, instants, opened, Option.toList_some, List.singleton_append] at ordered
    have below := (List.pairwise_cons.mp ordered).1
    have closed : List.Pairwise (· ≥ ·) (now :: entered :: instantsOf r.spells) := ordered
    exact List.pairwise_cons.mpr ⟨List.forall_mem_cons.mpr ⟨Nat.le_refl _, below⟩, closed⟩

theorem Ordered.opened_after {entered : Nat} (ordered : r.Ordered clock)
    (opened : r.opened = some entered) : r.total ≤ entered ∧ entered ≤ clock := by
  simp only [Ordered, instants, opened, Option.toList_some, List.singleton_append] at ordered
  exact ⟨total_le ordered.tail, (List.pairwise_cons.mp ordered).1 entered (by simp)⟩

theorem Ordered.total_le (ordered : r.Ordered clock) : r.total ≤ clock := by
  cases opened : r.opened with
  | none =>
      simp only [Ordered, instants, opened, Option.toList_none, List.nil_append] at ordered
      exact IdleTime.total_le ordered
  | some entered =>
      obtain ⟨before, within⟩ := ordered.opened_after opened
      exact before.trans within

end Record

/-! The serialized machine with the records of both cores. -/

structure Metered (Sem : Type) where
  machine : Machine Sem
  clock : Nat
  record : Core → Record

variable {Sem : Type}

def Idles (k : Kernel Sem) (cpu : Core) : Prop :=
  k.runPt cpu ≠ null ∧ k.runPt cpu = k.idleThread cpu

instance (k : Kernel Sem) (cpu : Core) : Decidable (Idles k cpu) :=
  inferInstanceAs (Decidable (_ ∧ _))

def getIdlePercentage (k : Kernel Sem) (cpu : Core) (totalRuntime : Nat) : Nat :=
  (k.idleTime cpu * 1000 % 2 ^ 64 + totalRuntime / 2) % 2 ^ 64 / totalRuntime % 2 ^ 32

def readingsOf : Call Sem → List Nat
  | .schedule _ times | .schedBlock _ _ times => [times.exitIdle, times.enterIdle]
  | .sleep _ now sleepTime times =>
      if sleepTime = 0 then [] else [now, times.exitIdle, times.enterIdle]
  | .unsleep first second => [first, second]
  | .kill _ freeStack freeTcb last =>
      [freeStack.exitIdle, freeStack.enterIdle, freeTcb.exitIdle, freeTcb.enterIdle,
        last.exitIdle, last.enterIdle]
  | .initScheduler _ | .addThread _ _ | .schedUnblock _ _ => []

def clockLimit : Nat := 2 ^ 53

def Timely (clock : Nat) (call : Call Sem) : Prop :=
  List.Pairwise (· ≤ ·) (clock :: readingsOf call) ∧ ∀ t ∈ readingsOf call, t < clockLimit

instance (clock : Nat) (call : Call Sem) : Decidable (Timely clock call) :=
  inferInstanceAs (Decidable (_ ∧ _))

def dispatchOf : Call Sem → Option (Core × Readings)
  | .schedule cpu times | .schedBlock cpu _ times | .kill cpu _ _ times => some (cpu, times)
  | .sleep cpu _ sleepTime times => if sleepTime = 0 then none else some (cpu, times)
  | .initScheduler _ | .addThread _ _ | .schedUnblock _ _ | .unsleep _ _ => none

/-- A dispatch ends the spell under way, if there is one, and begins another if
it selects the idle thread. -/
def dispatched (r : Record) (times : Readings) (idles : Prop) [Decidable idles] : Record :=
  if idles then (r.leave times.exitIdle).enter times.enterIdle else r.leave times.exitIdle

/-- `k` is the kernel after the call. The first spell begins at 0. -/
def recordAfter (record : Core → Record) (k : Kernel Sem) (call : Call Sem) : Core → Record :=
  match call with
  | .initScheduler cpu =>
      if Idles k cpu then Function.update record cpu ((record cpu).enter 0) else record
  | call =>
      match dispatchOf call with
      | none => record
      | some (cpu, times) =>
          Function.update record cpu (dispatched (record cpu) times (Idles k cpu))

section Step
variable [DecidableEq Sem]

def step (layout : Layout Sem) (s : Metered Sem) (call : Call Sem) : Option (Metered Sem) :=
  if Timely s.clock call then
    (Serialized.step layout s.machine call).map fun machine =>
      { machine
        clock := (readingsOf call).getLastD s.clock
        record := recordAfter s.record machine.kernel call }
  else none

def Guard (layout : Layout Sem) (s : Metered Sem) (call : Call Sem) : Prop :=
  Serialized.Guard layout s.machine call

instance (layout : Layout Sem) (s : Metered Sem) (call : Call Sem) :
    Decidable (Guard layout s call) :=
  inferInstanceAs (Decidable (Serialized.Guard _ _ _))

end Step

/-- `IdleTime` and `IdleTimeStart` are static data. -/
structure Start (layout : Layout Sem) (s : Metered Sem) : Prop where
  machine : PowerOn layout s.machine
  idleTime : s.machine.kernel.idleTime = fun _ => 0
  idleTimeStart : s.machine.kernel.idleTimeStart = fun _ => 0
  record : s.record = fun _ => .blank

structure Accounted (s : Metered Sem) (cpu : Core) : Prop where
  selected : (s.record cpu).opened.isSome ↔ Idles s.machine.kernel cpu
  ordered : (s.record cpu).Ordered s.clock
  total : s.machine.kernel.idleTime cpu = (s.record cpu).total
  since : ∀ entered, (s.record cpu).opened = some entered →
    s.machine.kernel.idleTimeStart cpu = entered
  bounded : ∀ now, s.clock ≤ now →
    s.machine.kernel.idleTime cpu +
      (if Idles s.machine.kernel cpu then now - s.machine.kernel.idleTimeStart cpu else 0) ≤ now
  percentage : ∀ now, s.clock ≤ now → 1 ≤ now → now < clockLimit →
    getIdlePercentage s.machine.kernel cpu now ≤ 1000

/-! What one dispatch does -/

structure Meter where
  runPt : Nat
  idleThread : Nat
  idleTime : Nat
  idleTimeStart : Nat

def meterOf (k : Kernel Sem) (cpu : Core) : Meter :=
  ⟨k.runPt cpu, k.idleThread cpu, k.idleTime cpu, k.idleTimeStart cpu⟩

/-- Whatever the calls did, the record tells the counters of a core. -/
structure Kept (k : Kernel Sem) (cpu : Core) (r : Record) (clock : Nat) : Prop where
  selected : r.opened.isSome ↔ Idles k cpu
  ordered : r.Ordered clock
  total : k.idleTime cpu = r.total
  since : ∀ entered, r.opened = some entered → k.idleTimeStart cpu = entered
  fresh : k.runPt cpu = null → r = .blank ∧ k.idleTimeStart cpu = 0

structure Dispatched (k k' : Kernel Sem) (cpu : Core) (times : Readings) : Prop where
  started : k'.runPt cpu ≠ null
  left : Idles k cpu → k'.idleTime cpu =
    (k.idleTime cpu + (times.exitIdle + 2 ^ 64 - k.idleTimeStart cpu)) % 2 ^ 64
  spent : ¬ Idles k cpu → k'.idleTime cpu = k.idleTime cpu
  entered : Idles k' cpu → k'.idleTimeStart cpu = times.enterIdle
  others : ∀ c, c ≠ cpu → meterOf k' c = meterOf k c

section Record
variable {k k' : Kernel Sem} {cpu : Core} {r : Record} {clock : Nat} {times : Readings}

theorem Kept.later {now : Nat} (kept : Kept k cpu r clock) (later : clock ≤ now) :
    Kept k cpu r now :=
  { kept with ordered := kept.ordered.later later }

theorem Kept.untouched (kept : Kept k cpu r clock) (same : meterOf k' cpu = meterOf k cpu) :
    Kept k' cpu r clock := by
  simp only [meterOf, Meter.mk.injEq] at same
  obtain ⟨runPt, idleThread, idleTime, idleTimeStart⟩ := same
  obtain ⟨selected, ordered, total, since, fresh⟩ := kept
  constructor
  · rwa [Idles, runPt, idleThread]
  · exact ordered
  · rwa [idleTime]
  · rwa [idleTimeStart]
  · rwa [runPt, idleTimeStart]

theorem Kept.idles {entered : Nat} (kept : Kept k cpu r clock) (opened : r.opened = some entered) :
    Idles k cpu := by
  rw [← kept.selected, opened]
  rfl

theorem Kept.busy (kept : Kept k cpu r clock) (closed : r.opened = none) : ¬ Idles k cpu := by
  rw [← kept.selected, closed]
  simp

/-- The counter takes the whole spell: no sum wraps below the limit of the clock. -/
theorem Kept.leave_total (kept : Kept k cpu r clock) (later : clock ≤ times.exitIdle)
    (small : times.exitIdle < clockLimit) (moved : Dispatched k k' cpu times) :
    k'.idleTime cpu = (r.leave times.exitIdle).total := by
  cases opened : r.opened with
  | none =>
      have same : r.leave times.exitIdle = r := by simp only [Record.leave, opened]
      rw [moved.spent (kept.busy opened), kept.total, same]
  | some entered =>
      obtain ⟨before, within⟩ := kept.ordered.opened_after opened
      have longer : (r.leave times.exitIdle).total = (times.exitIdle - entered) + r.total := by
        simp only [Record.leave, opened, Record.total, List.map_cons, List.sum_cons]
      rw [moved.left (kept.idles opened), kept.since entered opened, kept.total, longer]
      unfold clockLimit at small
      omega

theorem Kept.dispatch (kept : Kept k cpu r clock) (later : clock ≤ times.exitIdle)
    (ascending : times.exitIdle ≤ times.enterIdle) (small : times.exitIdle < clockLimit)
    (moved : Dispatched k k' cpu times) :
    Kept k' cpu (dispatched r times (Idles k' cpu)) times.enterIdle := by
  have total := kept.leave_total later small moved
  have closed : (r.leave times.exitIdle).Ordered times.enterIdle :=
    (kept.ordered.later later).leave.later ascending
  have rests : (r.leave times.exitIdle).opened = none := Record.leave_closed
  unfold dispatched
  split
  next idles =>
    constructor
    · exact ⟨fun _ => idles, fun _ => rfl⟩
    · exact closed.enter rests
    · exact total
    · intro entered opened
      rw [moved.entered idles]
      exact Option.some.inj opened
    · exact fun off => absurd off moved.started
  next busy =>
    constructor
    · simp [rests, busy]
    · exact closed
    · exact total
    · intro entered opened
      cases rests.symm.trans opened
    · exact fun off => absurd off moved.started

theorem Kept.bounded (kept : Kept k cpu r clock) :
    k.idleTime cpu + (if Idles k cpu then clock - k.idleTimeStart cpu else 0) ≤ clock := by
  rw [kept.total]
  cases opened : r.opened with
  | none =>
      rw [if_neg (kept.busy opened)]
      exact kept.ordered.total_le
  | some entered =>
      obtain ⟨before, within⟩ := kept.ordered.opened_after opened
      rw [if_pos (kept.idles opened), kept.since entered opened]
      omega

/-- Rounding half up does not lift a whole above 1000. -/
theorem percentage_le {now : Nat} (part : k.idleTime cpu ≤ now) (positive : 1 ≤ now)
    (small : now < clockLimit) : getIdlePercentage k cpu now ≤ 1000 := by
  unfold clockLimit at small
  have exact_sum : (k.idleTime cpu * 1000 % 2 ^ 64 + now / 2) % 2 ^ 64 =
      k.idleTime cpu * 1000 + now / 2 := by
    omega
  have rounded : (k.idleTime cpu * 1000 + now / 2) / now < 1001 := by
    rw [Nat.div_lt_iff_lt_mul positive]
    omega
  rw [getIdlePercentage, exact_sum]
  exact (Nat.mod_le _ _).trans (Nat.lt_succ_iff.mp rounded)

theorem Kept.accounted {s : Metered Sem} (kept : Kept s.machine.kernel cpu (s.record cpu) s.clock) :
    Accounted s cpu := by
  constructor
  · exact kept.selected
  · exact kept.ordered
  · exact kept.total
  · exact kept.since
  · exact fun now later => (kept.later later).bounded
  · intro now later positive small
    apply percentage_le _ positive small
    rw [kept.total]
    exact (kept.ordered.later later).total_le

end Record

/-! What the calls do -/

section Calls
variable {layout : Layout Sem} {m m' : Machine Sem} {q q' : Queues Sem} {k k' : Kernel Sem}
  {cpu : Core} {times : Readings}

theorem takeThread_runs (k : Shared Sem) (pri : Nat) :
    (takeThread k pri).1.state (takeThread k pri).2 = .running := by
  unfold takeThread takeRoot markRunning
  dsimp only
  split <;> exact Function.update_self _ _ _

theorem settle_meter (k : Kernel Sem) (cpu : Core) (now : Nat) :
    (settle k cpu now).runPt = k.runPt ∧ (settle k cpu now).idleThread = k.idleThread ∧
      (settle k cpu now).idleTimeStart = k.idleTimeStart ∧
      (settle k cpu now).idleTime =
        if k.state (k.runPt cpu) = .idle then (exitIdle k cpu now).idleTime else k.idleTime := by
  unfold settle
  split
  · exact ⟨rfl, rfl, rfl, rfl⟩
  · exact ⟨rfl, rfl, rfl, rfl⟩

theorem selectNext_meter {now : Nat} (selected : selectNext k cpu now = some k') :
    k'.runPt = k.runPt ∧ k'.idleThread = k.idleThread ∧ k'.idleTime = k.idleTime ∧
      k'.pendSv cpu = true ∧ (∀ c, c ≠ cpu → k'.idleTimeStart c = k.idleTimeStart c) ∧
      (k'.idleTimeStart cpu = now ∨ k'.state (k'.nextRunPt cpu) = .running) := by
  obtain ⟨pri, _, rfl⟩ := Option.map_eq_some_iff.mp selected
  dsimp only
  split
  · refine ⟨rfl, rfl, rfl, Function.update_self _ _ _, ?_, Or.inl (Function.update_self _ _ _)⟩
    exact fun c other => Function.update_of_ne other _ _
  · refine ⟨rfl, rfl, rfl, Function.update_self _ _ _, fun _ _ => rfl, Or.inr ?_⟩
    simp only [Function.update_self]
    exact takeThread_runs _ _

theorem suspend_meter (suspended : suspend m cpu times = some m') :
    m'.kernel.idleThread = m.kernel.idleThread ∧
      (m'.kernel.idleTime = if m.kernel.state (m.kernel.runPt cpu) = .idle
        then (exitIdle m.kernel cpu times.exitIdle).idleTime else m.kernel.idleTime) ∧
      (m'.kernel.idleTimeStart cpu = times.enterIdle ∨
        m'.kernel.state (m'.kernel.runPt cpu) = .running) ∧
      ∀ c, c ≠ cpu → meterOf m'.kernel c = meterOf m.kernel c := by
  obtain ⟨ran, scheduled, rfl⟩ := Option.map_eq_some_iff.mp suspended
  obtain ⟨kernel, selected, rfl⟩ := Option.map_eq_some_iff.mp scheduled
  obtain ⟨runPt, idleThread, idleTime, pending, starts, chosen⟩ := selectNext_meter selected
  obtain ⟨s_runPt, s_idleThread, s_starts, s_idleTime⟩ :=
    settle_meter m.kernel cpu times.exitIdle
  simp only [switch, pending, if_true]
  have now_runs : (pendSvHandler kernel cpu times.sp).runPt cpu = kernel.nextRunPt cpu :=
    Function.update_self _ _ _
  have time := idleTime.trans s_idleTime
  refine ⟨idleThread.trans s_idleThread, time, ?_, ?_⟩
  · rw [now_runs]
    exact chosen
  · intro c other
    have idle_time : (exitIdle m.kernel cpu times.exitIdle).idleTime c = m.kernel.idleTime c :=
      Function.update_of_ne other _ _
    simp only [meterOf, Meter.mk.injEq]
    refine ⟨?_, ?_, ?_, ?_⟩
    · rw [← s_runPt, ← runPt]
      exact Function.update_of_ne other _ _
    · rw [← s_idleThread, ← idleThread]
      rfl
    · refine (congrFun time c).trans ?_
      split
      · exact idle_time
      · rfl
    · rw [← s_starts, ← starts c other]
      rfl

theorem suspend_dispatched (suspended : suspend m cpu times = some m')
    (same : m.kernel.idleTime = k.idleTime ∧ m.kernel.idleTimeStart = k.idleTimeStart)
    (others : ∀ c, c ≠ cpu → meterOf m.kernel c = meterOf k c)
    (resting : m.kernel.state (m.kernel.runPt cpu) = .idle ↔ Idles k cpu)
    (on : m.kernel.idleThread cpu ≠ null) (after : Serialized.Inv layout m' q') :
    Dispatched k m'.kernel cpu times := by
  obtain ⟨idleThread, time, chosen, kept⟩ := suspend_meter suspended
  have still_on : m'.kernel.idleThread cpu ≠ null := by rwa [idleThread]
  constructor
  · rcases after.current cpu with ⟨_, off, _⟩ | ⟨started, _⟩
    · exact absurd off still_on
    · exact started
  · intro idles
    rw [time, if_pos (resting.mpr idles), ← same.1, ← same.2]
    exact Function.update_self _ _ _
  · intro busy
    rw [time, if_neg fun idle => busy (resting.mp idle), same.1]
  · rintro ⟨_, idle⟩
    rcases chosen with entered | running
    · exact entered
    · have idleTcb := (after.base.idle cpu still_on).state
      rw [← idle] at idleTcb
      cases running.symm.trans idleTcb
  · exact fun c other => (kept c other).trans (others c other)

theorem runSchedule_pends (ran : runSchedule m cpu times = some m') :
    m'.kernel.pendSv cpu = true := by
  obtain ⟨kernel, selected, rfl⟩ := Option.map_eq_some_iff.mp ran
  exact (selectNext_meter selected).2.2.2.1

variable [DecidableEq Sem]

theorem bSignal_meter {sem : Sem} (signalled : bSignal m cpu sem times = some m')
    (calm : m'.kernel.pendSv cpu = false) :
    m.kernel.pendSv cpu = false ∧ ∀ c, meterOf m'.kernel c = meterOf m.kernel c := by
  rcases bSignal_kernel signalled with same | ⟨woken, unblocked, outcome⟩
  · rw [same] at calm ⊢
    exact ⟨calm, fun _ => rfl⟩
  · rcases outcome with rfl | ran
    · rw [unblocked] at calm ⊢
      exact ⟨calm, fun _ => rfl⟩
    · cases calm.symm.trans (runSchedule_pends ran)

theorem free_meter {ptr : Nat} (released : Serialized.free layout m cpu ptr times = some m')
    (calm : m'.kernel.pendSv cpu = false) :
    m.kernel.pendSv cpu = false ∧ ∀ c, meterOf m'.kernel c = meterOf m.kernel c := by
  rcases free_kernel released with rfl | ⟨heap, signalled⟩
  · exact ⟨calm, fun _ => rfl⟩
  · have kept := bSignal_meter signalled calm
    exact kept

omit [DecidableEq Sem] in
theorem busy_apart (busy : NonIdle m.kernel cpu)
    {state : ThreadState} (other : state ≠ .idle) : state = .idle ↔ Idles m.kernel cpu :=
  ⟨fun idle => absurd idle other, fun idles => absurd idles.2 busy.2⟩

theorem kill_dispatched {freeStack freeTcb : Readings} (inv : Serialized.Inv layout m q)
    (busy : NonIdle m.kernel cpu) (quiet : QuietKill layout m.kernel cpu)
    (killed : kill layout m cpu freeStack freeTcb times = some m')
    (after : Serialized.Inv layout m' q') : Dispatched m.kernel m'.kernel cpu times := by
  obtain ⟨m₁, m₂, q₂, freed, freed_tcb, base, left⟩ :=
    frees_complete inv busy quiet freeStack freeTcb
  have suspended : suspend { m₂ with kernel := { m₂.kernel with
      runPt := Function.update m₂.kernel.runPt cpu layout.blackHole } } cpu times = some m' := by
    have stack : (retire m (m.kernel.runPt cpu)).kernel.stack = m.kernel.stack := rfl
    simp only [kill, stack, freed, freed_tcb, Option.bind_eq_bind, Option.bind_some] at killed
    obtain ⟨ran, scheduled, switched⟩ := Option.bind_eq_some_iff.mp killed
    rw [suspend, scheduled, Option.map_some, switched]
  obtain ⟨calm, second⟩ := free_meter freed_tcb (base.switched cpu)
  have first := (free_meter freed calm).2
  have same (d : Core) : meterOf m₂.kernel d = meterOf m.kernel d := (second d).trans (first d)
  simp only [meterOf, Meter.mk.injEq] at same
  refine suspend_dispatched suspended ⟨funext fun d => (same d).2.2.1,
    funext fun d => (same d).2.2.2⟩ ?_ ?_ ?_ after
  · intro d other
    simp only [meterOf, Function.update_of_ne other, Meter.mk.injEq]
    exact same d
  · dsimp only
    rw [Function.update_self, base.blackHole]
    exact busy_apart busy (by simp)
  · dsimp only
    rw [(same cpu).2.1]
    exact (inv.started busy.1).1

theorem perform_dispatched {call : Call Sem} (inv : Serialized.Inv layout m q)
    (enabled : Enabled layout m call) (guarded : Serialized.Guard layout m call)
    (performed : perform layout m call = some m') (after : Serialized.Inv layout m' q')
    (asks : dispatchOf call = some (cpu, times)) : Dispatched m.kernel m'.kernel cpu times := by
  cases call with
  | schedule c t =>
      obtain ⟨rfl, rfl⟩ := Prod.mk.inj (Option.some.inj asks)
      have on := (inv.started enabled).1
      refine suspend_dispatched performed ⟨rfl, rfl⟩ (fun _ _ => rfl) ?_ on after
      constructor
      · intro idle
        refine ⟨enabled, ?_⟩
        by_contra busy
        cases idle.symm.trans (inv.runs ⟨enabled, busy⟩).2.1
      · intro idles
        rw [idles.2]
        exact (inv.base.idle c on).state
  | schedBlock c sem t =>
      obtain ⟨rfl, rfl⟩ := Prod.mk.inj (Option.some.inj asks)
      obtain ⟨kernel, blocked, suspended⟩ := Option.bind_eq_some_iff.mp performed
      obtain ⟨links, _, rfl⟩ := Option.map_eq_some_iff.mp blocked
      refine suspend_dispatched suspended ⟨rfl, rfl⟩ (fun _ _ => rfl) ?_ (inv.started enabled.1).1
        after
      dsimp only
      rw [Function.update_self]
      exact busy_apart enabled (by simp)
  | sleep c now sleepTime t =>
      by_cases nothing : sleepTime = 0
      · simp [dispatchOf, nothing] at asks
      · simp only [dispatchOf, nothing, if_false, Option.some.injEq, Prod.mk.injEq] at asks
        obtain ⟨rfl, rfl⟩ := asks
        simp only [perform, nothing, if_false] at performed
        obtain ⟨kernel, asleep, suspended⟩ := Option.bind_eq_some_iff.mp performed
        obtain ⟨links, _, rfl⟩ := Option.map_eq_some_iff.mp asleep
        refine suspend_dispatched suspended ⟨rfl, rfl⟩ (fun _ _ => rfl) ?_ (inv.started enabled.1).1
          after
        dsimp only
        rw [Function.update_self]
        exact busy_apart enabled (by simp)
  | kill c freeStack freeTcb last =>
      obtain ⟨rfl, rfl⟩ := Prod.mk.inj (Option.some.inj asks)
      exact kill_dispatched inv enabled guarded performed after
  | initScheduler c => cases asks
  | addThread stackSize priority => cases asks
  | schedUnblock c sem => cases asks
  | unsleep first second => cases asks

omit [DecidableEq Sem] in
theorem addThread_meter {stackSize priority : Nat}
    (added : Serialized.addThread layout m stackSize priority = some m') (c : Core) :
    meterOf m'.kernel c = meterOf m.kernel c := by
  rcases addThread_kernel added with same | held | ⟨newtcb, stack, entered⟩
  · rw [same]
  · rw [held]
    rfl
  · rw [entered]
    rfl

theorem perform_untouched {call : Call Sem} (performed : perform layout m call = some m')
    (silent : dispatchOf call = none) (running : ∀ c, call ≠ .initScheduler c) (c : Core) :
    meterOf m'.kernel c = meterOf m.kernel c := by
  cases call with
  | initScheduler d => exact absurd rfl (running d)
  | addThread stackSize priority => exact addThread_meter performed c
  | schedUnblock d sem =>
      obtain ⟨⟨kernel, higher⟩, unblocked, left⟩ := Option.bind_eq_some_iff.mp performed
      obtain rfl := schedUnblock_kernel unblocked
      rw [← Option.some.inj left]
      rfl
  | sleep d now sleepTime t =>
      by_cases nothing : sleepTime = 0
      · simp only [perform, nothing, if_true] at performed
        rw [← Option.some.inj performed]
      · simp [dispatchOf, nothing] at silent
  | unsleep first second =>
      rw [← Option.some.inj performed]
      dsimp only [unsleep]
      split <;> rfl
  | schedule d t => cases silent
  | schedBlock d sem t => cases silent
  | kill d a b t => cases silent

omit [DecidableEq Sem] in
theorem initScheduler_meter (launched : initScheduler layout m cpu = some m') :
    m'.kernel.idleTime = m.kernel.idleTime ∧ m'.kernel.idleTimeStart = m.kernel.idleTimeStart ∧
      ∀ c, c ≠ cpu → meterOf m'.kernel c = meterOf m.kernel c := by
  rcases initScheduler_kernel launched with held | ⟨idleTcb, stack, first⟩
  · rw [held]
    exact ⟨rfl, rfl, fun _ _ => rfl⟩
  · obtain ⟨pri, _, same⟩ := Option.map_eq_some_iff.mp first
    rw [← same]
    dsimp only
    split
    · refine ⟨rfl, rfl, ?_⟩
      intro c other
      simp only [meterOf, setupIdle, Function.update_of_ne other]
    · refine ⟨rfl, rfl, ?_⟩
      intro c other
      simp only [meterOf, setupIdle, Function.update_of_ne other]

end Calls

/-! Runs -/

variable [DecidableEq Sem] {layout : Layout Sem} {s s' : Metered Sem} {q : Queues Sem}

structure Inv (layout : Layout Sem) (s : Metered Sem) (q : Queues Sem) : Prop where
  machine : Serialized.Inv layout s.machine q
  kept : ∀ cpu, Kept s.machine.kernel cpu (s.record cpu) s.clock

omit [DecidableEq Sem] in
theorem start_inv (start : Start layout s) : Inv layout s noQueues := by
  constructor
  · exact powerOn_inv start.machine
  · intro cpu
    have off : s.machine.kernel.runPt cpu = null := congrFun start.machine.current cpu
    have blank : s.record cpu = .blank := congrFun start.record cpu
    rw [blank]
    constructor
    · constructor
      · intro opened
        cases opened
      · exact fun idles => absurd off idles.1
    · exact List.pairwise_singleton _ _
    · exact congrFun start.idleTime cpu
    · intro entered opened
      cases opened
    · exact fun _ => ⟨rfl, congrFun start.idleTimeStart cpu⟩

omit [DecidableEq Sem] in
/-- The first spell of a core begins at 0, the initial value of `IdleTimeStart`. -/
theorem Kept.launch {k k' : Kernel Sem} {cpu : Core} {r : Record} {clock : Nat}
    (kept : Kept k cpu r clock) (off : k.runPt cpu = null)
    (idleTime : k'.idleTime = k.idleTime) (idleTimeStart : k'.idleTimeStart = k.idleTimeStart) :
    Kept k' cpu (if Idles k' cpu then r.enter 0 else r) clock := by
  obtain ⟨rfl, zero⟩ := kept.fresh off
  have total := kept.total
  rw [← idleTime] at total
  rw [← idleTimeStart] at zero
  split
  next idles =>
    constructor
    · exact ⟨fun _ => idles, fun _ => rfl⟩
    · exact List.pairwise_pair.mpr (Nat.zero_le _)
    · exact total
    · intro entered opened
      rw [zero]
      exact Option.some.inj opened
    · exact fun still => absurd still idles.1
  next busy =>
    constructor
    · constructor
      · intro opened
        cases opened
      · exact fun idles => absurd idles busy
    · exact kept.ordered
    · exact total
    · intro entered opened
      cases opened
    · exact fun _ => ⟨rfl, zero⟩

omit [DecidableEq Sem] in
theorem Timely.later {clock : Nat} {call : Call Sem} (timely : Timely clock call) :
    clock ≤ (readingsOf call).getLastD clock := by
  have last : (readingsOf call).getLastD clock ∈ clock :: readingsOf call :=
    List.getLastD_mem_cons
  rcases List.mem_cons.mp last with same | member
  · exact same.ge
  · exact (List.pairwise_cons.mp timely.1).1 _ member

omit [DecidableEq Sem] in
theorem dispatch_readings {call : Call Sem} {cpu : Core} {times : Readings}
    (asks : dispatchOf call = some (cpu, times)) :
    ∃ earlier, readingsOf call = earlier ++ [times.exitIdle, times.enterIdle] := by
  cases call with
  | schedule c t =>
      obtain ⟨rfl, rfl⟩ := Prod.mk.inj (Option.some.inj asks)
      exact ⟨[], rfl⟩
  | schedBlock c sem t =>
      obtain ⟨rfl, rfl⟩ := Prod.mk.inj (Option.some.inj asks)
      exact ⟨[], rfl⟩
  | sleep c now sleepTime t =>
      by_cases nothing : sleepTime = 0
      · simp [dispatchOf, nothing] at asks
      · simp only [dispatchOf, nothing, if_false, Option.some.injEq, Prod.mk.injEq] at asks
        obtain ⟨rfl, rfl⟩ := asks
        exact ⟨[now], if_neg nothing⟩
  | kill c freeStack freeTcb last =>
      obtain ⟨rfl, rfl⟩ := Prod.mk.inj (Option.some.inj asks)
      exact ⟨[freeStack.exitIdle, freeStack.enterIdle, freeTcb.exitIdle, freeTcb.enterIdle], rfl⟩
  | initScheduler c => cases asks
  | addThread stackSize priority => cases asks
  | schedUnblock c sem => cases asks
  | unsleep first second => cases asks

omit [DecidableEq Sem] in
theorem Timely.dispatch {clock : Nat} {call : Call Sem} {cpu : Core} {times : Readings}
    (timely : Timely clock call) (asks : dispatchOf call = some (cpu, times)) :
    clock ≤ times.exitIdle ∧ times.exitIdle ≤ times.enterIdle ∧ times.enterIdle < clockLimit ∧
      (readingsOf call).getLastD clock = times.enterIdle := by
  obtain ⟨earlier, same⟩ := dispatch_readings asks
  obtain ⟨ordered, small⟩ := timely
  rw [same] at ordered small ⊢
  obtain ⟨later, ordered⟩ := List.pairwise_cons.mp ordered
  have last := (List.pairwise_append.mp ordered).2.1
  refine ⟨later _ (by simp), List.pairwise_pair.mp last, small _ (by simp), ?_⟩
  simp

section RecordAfter
variable {record : Core → Record} {k : Kernel Sem} {call : Call Sem}

omit [DecidableEq Sem]

theorem recordAfter_dispatch {cpu : Core} {times : Readings}
    (asks : dispatchOf call = some (cpu, times)) :
    recordAfter record k call =
      Function.update record cpu (dispatched (record cpu) times (Idles k cpu)) := by
  cases call with
  | initScheduler c => cases asks
  | _ => simp only [recordAfter, asks]

theorem recordAfter_silent (silent : dispatchOf call = none)
    (running : ∀ c, call ≠ .initScheduler c) : recordAfter record k call = record := by
  cases call with
  | initScheduler c => exact absurd rfl (running c)
  | _ => simp only [recordAfter, silent]

theorem recordAfter_launch (cpu c : Core) :
    recordAfter record k (.initScheduler cpu) c =
      if c = cpu then if Idles k cpu then (record cpu).enter 0 else record cpu else record c := by
  have launched : recordAfter record k (.initScheduler cpu) =
      if Idles k cpu then Function.update record cpu ((record cpu).enter 0) else record := rfl
  rw [launched]
  by_cases this : c = cpu
  · subst this
    rw [if_pos rfl]
    split
    · exact Function.update_self _ _ _
    · rfl
  · rw [if_neg this]
    split
    · exact Function.update_of_ne this _ _
    · rfl

end RecordAfter

theorem step_inv (inv : Inv layout s q) {call : Call Sem} (guarded : Guard layout s call)
    (stepped : step layout s call = some s') : ∃ q', Inv layout s' q' := by
  by_cases timely : Timely s.clock call
  · simp only [step, timely, if_true] at stepped
    obtain ⟨machine, moved, rfl⟩ := Option.map_eq_some_iff.mp stepped
    obtain ⟨_, enabled, performed⟩ := step_enabled moved
    obtain ⟨q', after, _⟩ := inv_step inv.machine guarded moved
    refine ⟨q', after, ?_⟩
    intro cpu
    have kept := (inv.kept cpu).later timely.later
    dsimp only
    by_cases launches : ∃ c, call = .initScheduler c
    · obtain ⟨c, rfl⟩ := launches
      obtain ⟨idleTime, idleTimeStart, others⟩ := initScheduler_meter performed
      rw [recordAfter_launch]
      by_cases this : cpu = c
      · subst this
        rw [if_pos rfl]
        exact kept.launch enabled.1 idleTime idleTimeStart
      · rw [if_neg this]
        exact kept.untouched (others cpu this)
    · have running (c : Core) : call ≠ .initScheduler c := fun same => launches ⟨c, same⟩
      cases asks : dispatchOf call with
      | none =>
          rw [recordAfter_silent asks running]
          exact kept.untouched (perform_untouched performed asks running cpu)
      | some asked =>
          obtain ⟨c, times⟩ := asked
          have effect := perform_dispatched inv.machine enabled guarded performed after asks
          obtain ⟨later, ascending, small, last⟩ := timely.dispatch asks
          rw [recordAfter_dispatch asks]
          by_cases this : cpu = c
          · subst this
            rw [Function.update_self, last]
            exact (inv.kept cpu).dispatch later ascending (ascending.trans_lt small) effect
          · rw [Function.update_of_ne this]
            exact kept.untouched (effect.others cpu this)
  · simp [step, timely] at stepped

/-- Along every run the idle time of a core is the length of all its closed
spells, and with the spell under way it fits below the clock. -/
theorem idle_time_along_runs
    (reached : Reaches (step layout) (Guard layout) (Start layout) s) (cpu : Core) :
    Accounted s cpu := by
  obtain ⟨q, inv⟩ : ∃ q, Inv layout s q := by
    apply reached.invariant (fun s => ∃ q, Inv layout s q) fun _ start => ⟨_, start_inv start⟩
    rintro before call after ⟨q, inv⟩ guarded stepped
    exact step_inv inv guarded stepped
  exact (inv.kept cpu).accounted

def idleRun : List (Call Unit) :=
  [.initScheduler .cpu0, .addThread 1024 1, .schedule .cpu0 ⟨1000, 1000, 0⟩,
    .sleep .cpu0 4000 2 ⟨4003, 4005, 0⟩, .schedule .cpu0 ⟨5005, 5006, 0⟩, .unsleep 6000 6000,
    .schedule .cpu0 ⟨6006, 6006, 0⟩,
    .kill .cpu0 ⟨9000, 9000, 0⟩ ⟨9000, 9000, 0⟩ ⟨9000, 9000, 0⟩]

def restart : Metered Unit := ⟨reset, 0, fun _ => .blank⟩

theorem idle_time_along_runs_board :
    ∃ s, exec (step board) restart idleRun = some s ∧
      (s.record .cpu0).spells = [⟨5006, 6006⟩, ⟨4005, 5005⟩, ⟨0, 1000⟩] ∧
      s.machine.kernel.idleTime .cpu0 = 3000 ∧ Accounted s .cpu0 := by
  obtain ⟨s, executed, spells, time⟩ : ∃ s ∈ exec (step board) restart idleRun,
      (s.record .cpu0).spells = [⟨5006, 6006⟩, ⟨4005, 5005⟩, ⟨0, 1000⟩] ∧
        s.machine.kernel.idleTime .cpu0 = 3000 := by
    decide +kernel
  have allowed : Allowed (step board) (Guard board) restart idleRun := by decide +kernel
  have start : Start board restart := ⟨reset_powerOn, rfl, rfl, rfl⟩
  exact ⟨s, executed, spells, time,
    idle_time_along_runs (exec_reaches idleRun (.start start) allowed executed) .cpu0⟩

end MulticoreRtos.IdleTime
