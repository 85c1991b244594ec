import MulticoreRtos.Ownership
import MulticoreRtos.Sections

/-!
The invariant of the serialized machine. `Base` holds also inside a call, while
the calling core has no thread; `Inv` adds what each core runs. A `kill` that
wakes an equal or less urgent waiter of `heap_lock` runs `schedule()` inside
`free`, and the thread selected there is never switched to: such calls are left
out of the runs, and so are those of `malloc` that may hand out a live block.
-/

namespace MulticoreRtos.Serialized

open Scheduler Transition LinkedList
open Heap (null)

variable {Sem : Type} {layout : Layout Sem} {m m' : Machine Sem} {q q' : Queues Sem}

def assigned (k : Kernel Sem) (q : Queues Sem) (c : Core) : Nat :=
  if q.running c = null then k.idleThread c else q.running c

def Current (k : Kernel Sem) (q : Queues Sem) (c : Core) : Prop :=
  k.runPt c = null ∧ k.idleThread c = null ∧ q.running c = null ∨
    k.runPt c ≠ null ∧ k.idleThread c ≠ null ∧ k.runPt c = assigned k q c

def Holder (k : Kernel Sem) (q : Queues Sem) (t : Nat) : Prop :=
  q.place t ≠ .gone ∨ t ≠ null ∧ ∃ c, k.idleThread c = t

structure IdleTcb (k : Kernel Sem) (q : Queues Sem) (t : Nat) : Prop where
  gone : q.place t = .gone
  state : k.state t = .idle
  priority : k.priority t = idlePriority

structure Base (layout : Layout Sem) (m : Machine Sem) (q : Queues Sem) : Prop where
  rep : Rep layout.slots m.kernel.toShared q
  live : ∀ t, t ∈ m.live ↔ q.place t ≠ .gone
  tracked : Heap.Tracked layout.place m.heap
  owned : Owned m.kernel.stack (Holder m.kernel q) m.heap.live
  idle : ∀ c, m.kernel.idleThread c ≠ null → IdleTcb m.kernel q (m.kernel.idleThread c)
  idleApart : ∀ c d, m.kernel.idleThread c ≠ null →
    m.kernel.idleThread c = m.kernel.idleThread d → c = d
  blackHole : m.kernel.state layout.blackHole = .dead
  idleLevel : ∀ c, m.kernel.idleThread c ≠ null → m.kernel.activePriorityCount idlePriority = 1
  switched : ∀ c, m.kernel.pendSv c = false
  rests : ∀ c, m.kernel.idleThread c = null → RootsRest m.kernel.toShared q
  decided : ∀ d ∈ m.decisions, DispatchOk (· ∈ d.live) d.entry d.cpu d.chosen

structure Inv (layout : Layout Sem) (m : Machine Sem) (q : Queues Sem) : Prop where
  base : Base layout m q
  current : ∀ c, Current m.kernel q c

theorem Base.blackHole_gone (base : Base layout m q) : q.place layout.blackHole = .gone := by
  by_contra live
  exact layout.blackHole_outside (base.rep.listed.inside _ live)

theorem Base.not_idle (base : Base layout m q) {c : Core} {t : Nat}
    (there : m.kernel.idleThread c ≠ null) (live : q.place t ≠ .gone) :
    m.kernel.idleThread c ≠ t := by
  rintro rfl
  exact live (base.idle c there).gone

theorem Inv.started (inv : Inv layout m q) {c : Core} (started : m.kernel.runPt c ≠ null) :
    m.kernel.idleThread c ≠ null ∧ m.kernel.runPt c = assigned m.kernel q c := by
  rcases inv.current c with ⟨off, _⟩ | ⟨_, idle, same⟩
  · exact absurd off started
  · exact ⟨idle, same⟩

theorem Inv.unstarted (inv : Inv layout m q) {c : Core} (off : m.kernel.idleThread c = null) :
    m.kernel.runPt c = null ∧ q.running c = null := by
  rcases inv.current c with ⟨none, _, free⟩ | ⟨_, idle, _⟩
  · exact ⟨none, free⟩
  · exact absurd off idle

theorem Inv.runs (inv : Inv layout m q) {c : Core} (busy : NonIdle m.kernel c) :
    q.running c = m.kernel.runPt c ∧ m.kernel.state (m.kernel.runPt c) = .running ∧
      q.place (m.kernel.runPt c) = .ready (m.kernel.priority (m.kernel.runPt c)) := by
  obtain ⟨_, same⟩ := inv.started busy.1
  have given : q.running c ≠ null := by
    intro free
    rw [assigned, if_pos free] at same
    exact busy.2 same
  rw [assigned, if_neg given] at same
  rw [same]
  exact ⟨rfl, inv.base.rep.given given⟩

theorem Inv.busy_not_idle (inv : Inv layout m q) {c d : Core} (busy : NonIdle m.kernel c)
    (there : m.kernel.idleThread d ≠ null) : m.kernel.idleThread d ≠ m.kernel.runPt c :=
  inv.base.not_idle there (by simp [(inv.runs busy).2.2])

theorem Inv.own (inv : Inv layout m q) {c : Core} (started : m.kernel.runPt c ≠ null) :
    Own m.kernel q c := by
  obtain ⟨idle, same⟩ := inv.started started
  by_cases free : q.running c = null
  · rw [assigned, if_pos free] at same
    have resting := (inv.base.idle c idle).state
    rw [← same] at resting
    simp [Own, resting, free]
  · have busy : NonIdle m.kernel c := by
      refine ⟨started, ?_⟩
      intro resting
      rw [assigned, if_neg free, resting] at same
      obtain ⟨p, here⟩ := inv.base.rep.listed.current c free
      exact inv.base.not_idle idle (by simp [here]) same
    obtain ⟨given, runs, _⟩ := inv.runs busy
    rw [Own, if_pos runs, given]

theorem Base.allocated (base : Base layout m q) {heap : Heap.State}
    (tracked : Heap.Tracked layout.place heap) (kept : ∀ block ∈ m.heap.live, block ∈ heap.live) :
    Base layout { m with heap } q :=
  { base with
    tracked
    owned := base.owned.shrink (fun _ => id) fun _ _ _ block member _ => kept block member }

theorem Base.moved (base : Base layout m q) {k : Kernel Sem}
    (moved : Moved layout.slots m.kernel.toShared k.toShared q q')
    (stack : k.stack = m.kernel.stack) (idleThread : k.idleThread = m.kernel.idleThread)
    (pendSv : k.pendSv = m.kernel.pendSv)
    (rests : ∀ c, m.kernel.idleThread c = null → RootsRest k.toShared q') :
    Base layout { m with kernel := k } q' := by
  have holders (t : Nat) (holds : Holder k q' t) : Holder m.kernel q t := by
    rwa [Holder, idleThread, ne_eq, moved.alive] at holds
  constructor
  · exact moved.rep
  · intro t
    rw [ne_eq, moved.alive]
    exact base.live t
  · exact base.tracked
  · simp only [stack]
    exact base.owned.shrink holders fun _ _ _ _ member _ => member
  · intro c
    simp only [idleThread]
    intro there
    obtain ⟨gone, state, priority⟩ := base.idle c there
    refine ⟨(moved.alive _).mpr gone, ?_, ?_⟩
    · rw [moved.unlinked _ gone, state]
    · rw [moved.priority, priority]
  · simp only [idleThread]
    exact base.idleApart
  · simp only [moved.unlinked _ base.blackHole_gone]
    exact base.blackHole
  · simp only [idleThread, moved.idleLevel]
    exact base.idleLevel
  · simp only [pendSv]
    exact base.switched
  · simp only [idleThread]
    exact rests
  · exact base.decided

theorem others_off {k : Kernel Sem} {c d : Core} (others : ∀ e, e ≠ c → Current k q e)
    (on : k.idleThread c ≠ null) (off : k.idleThread d = null) (e : Core) (other : e ≠ c) :
    q.running e = null := by
  have apart : d ≠ c := by
    rintro rfl
    exact on off
  rw [Core.eq_of_ne other apart]
  rcases others d apart with ⟨_, _, free⟩ | ⟨_, idle, _⟩
  · exact free
  · exact absurd off idle

theorem DispatchOk.congr {live live' : Nat → Prop} {k : Kernel Sem} {c : Core} {chosen : Nat}
    (ok : DispatchOk live k c chosen) (same : ∀ t, live' t ↔ live t) :
    DispatchOk live' k c chosen := by
  have equal : live' = live := funext fun t => propext (same t)
  rwa [equal]

theorem suspend_eq {k : Kernel Sem} {c : Core} (times : Readings)
    (scheduled : schedule m.kernel c times = some k) (pending : k.pendSv c = true) :
    suspend m c times = some { m with
      kernel := pendSvHandler k c times.sp
      decisions := ⟨settle m.kernel c times.exitIdle, c, k.nextRunPt c, m.live⟩ :: m.decisions } := by
  simp [suspend, runSchedule, scheduled, switch, pending]

theorem assigned_ne_null {k : Kernel Sem} {c : Core} (idle : k.idleThread c ≠ null) :
    assigned k q c ≠ null := by
  unfold assigned
  split
  · exact idle
  · assumption

variable [DecidableEq Sem]

/-- A call of `schedule()` with its switch completes the caller's own state. -/
theorem suspend_inv (base : Base layout m q) {c : Core} (own : Own m.kernel q c)
    (started : m.kernel.runPt c ≠ null) (idle : m.kernel.idleThread c ≠ null)
    (others : ∀ d, d ≠ c → Current m.kernel q d) (times : Readings) :
    ∃ m' q', suspend m c times = some m' ∧ Inv layout m' q' ∧
      (∀ spot, (∀ p, spot ≠ .ready p) → q'.members spot = q.members spot) ∧
      m'.kernel.resumeTick = m.kernel.resumeTick ∧ m'.kernel.priority = m.kernel.priority := by
  obtain ⟨k, q', answer, scheduled, chosen⟩ := schedule_spec times base.rep own started
    (by rw [base.idleLevel c idle]; exact Nat.one_ne_zero)
  have tasks := scheduled.tasks
  have pending : k.pendSv c = true := by rw [scheduled.pending, Function.update_self]
  have next : k.nextRunPt c = assigned m.kernel q' c := by
    rw [scheduled.next, Function.update_self]
    rfl
  have holders (t : Nat) (holds : Holder k q' t) : Holder m.kernel q t := by
    rwa [Holder, tasks.idleThread, scheduled.place] at holds
  refine ⟨_, q', suspend_eq times answer pending, ⟨?_, ?_⟩, scheduled.lists, tasks.resumeTick,
    tasks.priority⟩
  · constructor
    · exact scheduled.rep
    · simp only [scheduled.place]
      exact base.live
    · exact base.tracked
    · simp only [pendSvHandler, tasks.stack]
      exact base.owned.shrink holders fun _ _ _ _ member _ => member
    · simp only [pendSvHandler, tasks.idleThread]
      intro d there
      obtain ⟨gone, state, priority⟩ := base.idle d there
      refine ⟨by rw [scheduled.place, gone], ?_, ?_⟩
      · simp only [scheduled.unlinked _ gone, state]
      · simp only [tasks.priority, priority]
    · simp only [pendSvHandler, tasks.idleThread]
      exact base.idleApart
    · simp only [pendSvHandler, scheduled.unlinked _ base.blackHole_gone]
      exact base.blackHole
    · simp only [pendSvHandler, tasks.idleThread, tasks.idleLevel]
      exact base.idleLevel
    · intro d
      by_cases this : d = c
      · subst this
        exact Function.update_self _ _ _
      · simp only [pendSvHandler, scheduled.pending, Function.update_of_ne this]
        exact base.switched d
    · simp only [pendSvHandler, tasks.idleThread]
      intro d off
      exact scheduled.rests (others_off others idle off)
    · intro decision member
      rcases List.mem_cons.mp member with rfl | old
      · exact DispatchOk.congr chosen base.live
      · exact base.decided decision old
  · intro d
    by_cases this : d = c
    · subst this
      right
      simp only [pendSvHandler, tasks.runPt, tasks.idleThread, Function.update_self, next]
      refine ⟨assigned_ne_null idle, idle, ?_⟩
      simp only [assigned]
    · have before := others d this
      simp only [Current, assigned, pendSvHandler, tasks.runPt, tasks.idleThread,
        Function.update_of_ne this, scheduled.others d this] at before ⊢
      exact before

def sleepersAfter (k : Kernel Sem) (q : Queues Sem) : Call Sem → List Nat × (Nat → Nat)
  | .sleep cpu now sleepTime _ =>
      if sleepTime = 0 then (q.members .asleep, k.resumeTick)
      else
        let ticks := Function.update k.resumeTick (k.runPt cpu) (tickAfter now sleepTime)
        (insertByKey ticks (k.runPt cpu) (q.members .asleep), ticks)
  | .unsleep _ _ => ((q.members .asleep).tail, k.resumeTick)
  | _ => (q.members .asleep, k.resumeTick)

def Completes (layout : Layout Sem) (m : Machine Sem) (q : Queues Sem) (call : Call Sem) : Prop :=
  ∃ m' q', perform layout m call = some m' ∧ Inv layout m' q' ∧
    (q'.members .asleep, m'.kernel.resumeTick) = sleepersAfter m.kernel q call

theorem schedule_completes (inv : Inv layout m q) {c : Core} (started : m.kernel.runPt c ≠ null)
    (times : Readings) : Completes layout m q (.schedule c times) := by
  obtain ⟨m', q', performed, after, lists, ticks, _⟩ := suspend_inv inv.base (inv.own started)
    started (inv.started started).1 (fun d _ => inv.current d) times
  exact ⟨m', q', performed, after, by rw [lists .asleep (by simp), ticks]; rfl⟩

section Park
variable {c : Core} {spot : Place Sem} {key : Nat → Nat} {shared : Shared Sem}

theorem park_suspends (inv : Inv layout m q) (busy : NonIdle m.kernel c)
    (chained : spot = .asleep ∨ ∃ s, spot = .waiting s)
    (moved : Moved layout.slots m.kernel.toShared shared q
      (q.park (m.kernel.runPt c) (m.kernel.priority (m.kernel.runPt c)) spot key))
    (alarm : Nat) (times : Readings) :
    ∃ m' q', suspend { m with kernel := { m.kernel with toShared := shared, alarm0 := alarm } } c
        times = some m' ∧ Inv layout m' q' ∧
      (∀ other, (∀ p, other ≠ .ready p) → q'.members other =
        if other = spot then insertByKey key (m.kernel.runPt c) (q.members spot)
        else q.members other) ∧
      m'.kernel.resumeTick = shared.resumeTick ∧ m'.kernel.priority = m.kernel.priority := by
  obtain ⟨given, _, here⟩ := inv.runs busy
  obtain ⟨idle, _⟩ := inv.started busy.1
  have free : (q.park (m.kernel.runPt c) (m.kernel.priority (m.kernel.runPt c)) spot key).running c =
      null := if_pos given
  have kept (d : Core) (other : d ≠ c) :
      (q.park (m.kernel.runPt c) (m.kernel.priority (m.kernel.runPt c)) spot key).running d =
        q.running d := by
    apply if_neg
    intro same
    exact other (inv.base.rep.listed.apart c d (by rw [given]; exact busy.1)
      (given.trans same.symm)).symm
  have rests (d : Core) (off : m.kernel.idleThread d = null) : RootsRest shared
      (q.park (m.kernel.runPt c) (m.kernel.priority (m.kernel.runPt c)) spot key) := by
    apply RootsRest.of_nobody moved.rep
    apply Queues.nobody free
    intro e other
    rw [kept e other]
    exact others_off (fun e _ => inv.current e) idle off e other
  have based := inv.base.moved (k := { m.kernel with toShared := shared, alarm0 := alarm }) moved rfl
    rfl rfl rests
  have parked : shared.state (m.kernel.runPt c) ≠ .running := by
    have fits := moved.rep.stated (m.kernel.runPt c)
    have place : (q.park (m.kernel.runPt c) (m.kernel.priority (m.kernel.runPt c)) spot key).place
        (m.kernel.runPt c) = spot := Function.update_self _ _ _
    rw [place] at fits
    rcases chained with rfl | ⟨s, rfl⟩
    · simp [fits.2]
    · simp [fits.2]
  obtain ⟨m', q', performed, after, lists, ticks, priority⟩ := suspend_inv based
    (by simp only [Own, if_neg parked]; exact free) busy.1 idle
    (fun d other => by
      have before := inv.current d
      simp only [Current, assigned, kept d other] at before ⊢
      exact before) times
  refine ⟨m', q', performed, after, fun other away => ?_, ticks, priority.trans moved.priority⟩
  rw [lists other away]
  exact park_members here other away

end Park

theorem schedBlock_completes (inv : Inv layout m q) {c : Core} (busy : NonIdle m.kernel c)
    (sem : Sem) (times : Readings) : Completes layout m q (.schedBlock c sem times) := by
  obtain ⟨_, runs, here⟩ := inv.runs busy
  obtain ⟨shared, answer, kept, moved⟩ := schedBlock_moved inv.base.rep here runs sem
  obtain ⟨m', q', performed, after, lists, ticks, _⟩ := park_suspends inv busy (Or.inr ⟨sem, rfl⟩)
    moved m.kernel.alarm0 times
  refine ⟨m', q', ?_, after, ?_⟩
  · simp only [perform, answer]
    exact performed
  · rw [lists .asleep (by simp), ticks, kept, if_neg (by simp)]
    rfl

theorem sleep_completes (inv : Inv layout m q) {c : Core} (busy : NonIdle m.kernel c)
    (now sleepTime : Nat) (times : Readings) :
    Completes layout m q (.sleep c now sleepTime times) := by
  by_cases nothing : sleepTime = 0
  · exact ⟨m, q, by simp [perform, nothing], inv, by simp [sleepersAfter, nothing]⟩
  · obtain ⟨_, runs, here⟩ := inv.runs busy
    obtain ⟨shared, alarm, answer, kept, moved⟩ := sleep_moved inv.base.rep here runs now sleepTime
    obtain ⟨m', q', performed, after, lists, ticks, _⟩ := park_suspends inv busy (Or.inl rfl) moved
      alarm times
    refine ⟨m', q', ?_, after, ?_⟩
    · simp only [perform, nothing, if_false, answer]
      exact performed
    · rw [lists .asleep (by simp), ticks, kept, if_pos rfl]
      simp [sleepersAfter, nothing]

omit [DecidableEq Sem] in
theorem Inv.moved (inv : Inv layout m q) {k : Kernel Sem}
    (moved : Moved layout.slots m.kernel.toShared k.toShared q q')
    (stack : k.stack = m.kernel.stack) (idleThread : k.idleThread = m.kernel.idleThread)
    (pendSv : k.pendSv = m.kernel.pendSv) (runPt : k.runPt = m.kernel.runPt)
    (running : q'.running = q.running)
    (rests : RootsRest m.kernel.toShared q → RootsRest k.toShared q') :
    Inv layout { m with kernel := k } q' := by
  constructor
  · exact inv.base.moved moved stack idleThread pendSv fun c off => rests (inv.base.rests c off)
  · intro c
    have before := inv.current c
    simp only [Current, assigned, runPt, idleThread, running] at before ⊢
    exact before

theorem schedUnblock_inv (inv : Inv layout m q) (c : Core) {sem : Sem}
    (some_waits : m.kernel.bthreadsRoot sem ≠ null) :
    ∃ m' t rest, perform layout m (.schedUnblock c sem) = some m' ∧
      m'.kernel = { m.kernel with toShared := unblockShared m.kernel.toShared sem } ∧
      q.members (.waiting sem) = t :: rest ∧ q.place t = .waiting sem ∧
      m'.kernel.priority = m.kernel.priority ∧
      Inv layout m' (q.wake t (m.kernel.priority t) rest) := by
  obtain ⟨t, rest, nodes, root, here⟩ := waiters_cons inv.base.rep some_waits
  obtain ⟨answer, moved⟩ := schedUnblock_moved inv.base.rep c nodes
  let kernel := { m.kernel with toShared := unblockShared m.kernel.toShared sem }
  have performed : perform layout m (.schedUnblock c sem) = some { m with kernel } := by
    simp only [perform, answer]
    rfl
  refine ⟨_, t, rest, performed, rfl, nodes, here, moved.priority, inv.moved (k := kernel) moved
    rfl rfl rfl rfl (wake_running inv.base.rep here (by simp) (by simp)) ?_⟩
  intro rests
  simp only [kernel, unblockShared, root]
  exact wake_rests inv.base.rep rests here (by simp) rfl

theorem schedUnblock_completes (inv : Inv layout m q) (c : Core) {sem : Sem}
    (some_waits : m.kernel.bthreadsRoot sem ≠ null) :
    Completes layout m q (.schedUnblock c sem) := by
  obtain ⟨m', t, rest, performed, kernel, _, here, _, after⟩ := schedUnblock_inv inv c some_waits
  refine ⟨m', _, performed, after, ?_⟩
  rw [wake_members here (by simp) .asleep (by simp), if_neg (by simp), kernel]
  simp only [unblockShared, enqueueThread_resumeTick]
  rfl

theorem unsleep_inv (inv : Inv layout m q) (first second : Nat) :
    q.members .asleep = [] ∧ unsleep m.kernel first second = m.kernel ∨
      ∃ t rest, q.members .asleep = t :: rest ∧ q.place t = .asleep ∧
        (unsleep m.kernel first second).toShared =
          enqueueThread { m.kernel.toShared with sleepScheduleRoot := m.kernel.nextTcb t } t ∧
        (unsleep m.kernel first second).priority = m.kernel.priority ∧
        Inv layout { m with kernel := unsleep m.kernel first second }
          (q.wake t (m.kernel.priority t) rest) := by
  obtain ⟨runPt, _, idleThread, pendSv, stack⟩ := unsleep_local m.kernel first second
  rcases unsleep_moved inv.base.rep first second with ⟨nodes, unchanged⟩ | ⟨t, rest, nodes, here,
    shared, moved⟩
  · exact Or.inl ⟨nodes, unchanged⟩
  · refine Or.inr ⟨t, rest, nodes, here, shared, moved.priority, inv.moved moved stack idleThread
      pendSv runPt (wake_running inv.base.rep here (by simp) (by simp)) ?_⟩
    intro rests
    rw [shared]
    exact wake_rests inv.base.rep rests here (by simp) rfl

theorem unsleep_completes (inv : Inv layout m q) (first second : Nat) :
    Completes layout m q (.unsleep first second) := by
  rcases unsleep_inv inv first second with ⟨nodes, unchanged⟩ | ⟨t, rest, nodes, here, shared, _,
    after⟩
  · exact ⟨m, q, by simp only [perform, unchanged], inv, by simp [sleepersAfter, nodes]⟩
  · refine ⟨_, _, rfl, after, ?_⟩
    rw [wake_members here (by simp) .asleep (by simp), if_pos rfl, shared]
    simp only [sleepersAfter, nodes, List.tail_cons, enqueueThread_resumeTick]

/-! Calls that allocate -/

/-- Both requests of `add_thread` or `init_scheduler` are of the kind `malloc`
serves well. -/
def HeapSpared (layout : Layout Sem) (m : Machine Sem) (second : Nat) : Prop :=
  Heap.Spared m.heap (.malloc sizeofTcb) ∧
    ∀ heap ptr, allocate layout.place m.heap sizeofTcb = some (heap, ptr) → ptr ≠ null →
      Heap.Spared heap (.malloc second)

instance (layout : Layout Sem) (m : Machine Sem) (second : Nat) :
    Decidable (HeapSpared layout m second) :=
  decidable_of_iff
    (Heap.Spared m.heap (.malloc sizeofTcb) ∧
      ∀ pair ∈ allocate layout.place m.heap sizeofTcb, pair.2 ≠ null →
        Heap.Spared pair.1 (.malloc second))
    (by simp [HeapSpared])

structure NewBlocks (layout : Layout Sem) (before after : Heap.State) (tcb stack : Nat) :
    Prop where
  tracked : Heap.Tracked layout.place after
  slot : tcb ∈ layout.slots.addresses
  kept : ∀ old ∈ before.live, old ∈ after.live
  tcb_held : ∃ block ∈ after.live, block.ptr = tcb
  stack_held : ∃ block ∈ after.live, block.ptr = stack
  tcb_fresh : ∀ old ∈ before.live, old.ptr ≠ tcb
  stack_fresh : ∀ old ∈ before.live, old.ptr ≠ stack
  apart : tcb ≠ stack

section Allocation
variable {size : Nat}

omit [DecidableEq Sem] in
theorem allocate_pair (tracked : Heap.Tracked layout.place m.heap)
    (spared : HeapSpared layout m size) :
    ∃ first tcb, allocate layout.place m.heap sizeofTcb = some (first, tcb) ∧
      Heap.Tracked layout.place first ∧ (∀ old ∈ m.heap.live, old ∈ first.live) ∧
      (tcb ≠ null → (∀ old ∈ m.heap.live, old.ptr ≠ tcb) ∧
        ∃ second stack, allocate layout.place first size = some (second, stack) ∧
          Heap.Tracked layout.place second ∧ (∀ old ∈ m.heap.live, old ∈ second.live) ∧
          (stack ≠ null → NewBlocks layout m.heap second tcb stack)) := by
  obtain ⟨first, tcb, answer, first_tracked, outcome⟩ := allocate_spec tracked spared.1
  rcases outcome with ⟨rfl, rfl⟩ | ⟨i, inside, node, blocks, fresh⟩
  · exact ⟨_, _, answer, tracked, fun _ => id, fun found => absurd rfl found⟩
  · have kept : ∀ old ∈ m.heap.live, old ∈ first.live := by
      intro old member
      rw [blocks]
      exact List.mem_cons_of_mem _ member
    refine ⟨first, tcb, answer, first_tracked, kept, fun found => ⟨fresh, ?_⟩⟩
    obtain ⟨second, stack, again, second_tracked, rest⟩ :=
      allocate_spec first_tracked (spared.2 first tcb answer found)
    rcases rest with ⟨rfl, rfl⟩ | ⟨_, _, _, more, stack_fresh⟩
    · exact ⟨_, _, again, first_tracked, kept, fun found => absurd rfl found⟩
    · have all_kept : ∀ old ∈ first.live, old ∈ second.live := by
        intro old member
        rw [more]
        exact List.mem_cons_of_mem _ member
      have tcb_block : ∃ block ∈ first.live, block.ptr = tcb := by simp [blocks]
      refine ⟨second, stack, again, second_tracked, fun old member => all_kept old (kept old member),
        fun _ => ?_⟩
      obtain ⟨block, member, ptr⟩ := tcb_block
      constructor
      · exact second_tracked
      · rw [node]
        exact layout.node_slot i inside
      · exact fun old member => all_kept old (kept old member)
      · exact ⟨block, all_kept block member, ptr⟩
      · simp [more]
      · exact fresh
      · exact fun old member => stack_fresh old (kept old member)
      · rw [← ptr]
        exact stack_fresh block member

omit [DecidableEq Sem] in
theorem Base.unheld (base : Base layout m q) {ptr : Nat}
    (fresh : ∀ old ∈ m.heap.live, old.ptr ≠ ptr) : ¬ Holder m.kernel q ptr := by
  intro holds
  obtain ⟨block, member, same⟩ := base.owned.held ptr .tcb holds
  exact fresh block member same

omit [DecidableEq Sem] in
theorem Inv.allocated (inv : Inv layout m q) {heap : Heap.State}
    (tracked : Heap.Tracked layout.place heap) (kept : ∀ block ∈ m.heap.live, block ∈ heap.live) :
    Inv layout { m with heap } q :=
  ⟨inv.base.allocated tracked kept, inv.current⟩

omit [DecidableEq Sem] in
theorem Inv.held (inv : Inv layout m q) :
    Inv layout { m with kernel := { m.kernel with schedulerHeld := true } } q where
  base :=
    { rep := inv.base.rep
      live := inv.base.live
      tracked := inv.base.tracked
      owned := inv.base.owned
      idle := fun c there => ⟨(inv.base.idle c there).gone, (inv.base.idle c there).state,
        (inv.base.idle c there).priority⟩
      idleApart := inv.base.idleApart
      blackHole := inv.base.blackHole
      idleLevel := inv.base.idleLevel
      switched := inv.base.switched
      rests := inv.base.rests
      decided := inv.base.decided }
  current := inv.current

omit [DecidableEq Sem] in
theorem NewBlocks.unused (base : Base layout m q) {heap : Heap.State} {tcb stack : Nat}
    (new : NewBlocks layout m.heap heap tcb stack) :
    q.place tcb = .gone ∧ (∀ c, m.kernel.idleThread c ≠ null → m.kernel.idleThread c ≠ tcb) ∧
      layout.blackHole ≠ tcb := by
  have unheld := base.unheld new.tcb_fresh
  refine ⟨?_, ?_, ?_⟩
  · by_contra live
    exact unheld (Or.inl live)
  · intro c there same
    exact unheld (Or.inr ⟨by rwa [← same], c, same⟩)
  · intro same
    exact layout.blackHole_outside (same ▸ new.slot)

theorem addThread_inv (inv : Inv layout m q) {heap : Heap.State} {newtcb stack : Nat}
    (new : NewBlocks layout m.heap heap newtcb stack) (stackSize : Nat) {priority : Nat}
    (bounded : priority < priorityLvlCnt) :
    Inv layout
      { m with
        heap
        kernel := Scheduler.addThread m.kernel newtcb stack stackSize priority
        live := insert newtcb m.live }
      (q.enter newtcb (.ready priority) (newtcb :: q.members (.ready priority))) := by
  have base := inv.base
  obtain ⟨gone, not_idle, not_stub⟩ := new.unused base
  constructor
  · constructor
    · exact addThread_enters base.rep gone new.slot bounded stack stackSize
    · intro t
      by_cases this : t = newtcb
      · subst this
        simp [Queues.enter]
      · simp [Queues.enter, this, base.live t]
    · exact new.tracked
    · refine base.owned.grow new.tcb_fresh new.stack_fresh new.apart ?_ new.kept new.tcb_held
        new.stack_held
      rintro t (live | idle)
      · by_cases this : t = newtcb
        · exact Or.inl this
        · exact Or.inr (Or.inl (by simpa [Queues.enter, this] using live))
      · exact Or.inr (Or.inr idle)
    · intro c there
      obtain ⟨idle_gone, state, priority⟩ := base.idle c there
      have other := not_idle c there
      refine ⟨(Function.update_of_ne other _ _).trans idle_gone,
        (Function.update_of_ne other _ _).trans state, ?_⟩
      simp only [Scheduler.addThread, enqueueThread_priority]
      exact (Function.update_of_ne other _ _).trans priority
    · exact base.idleApart
    · exact (Function.update_of_ne not_stub _ _).trans base.blackHole
    · intro c there
      simp only [Scheduler.addThread, (enqueueThread_counts _ _).1, Function.update_self]
      exact (Function.update_of_ne bounded.ne' _ _).trans (base.idleLevel c there)
    · exact base.switched
    · intro c off
      exact addThread_rests base.rep (base.rests c off) gone stack stackSize priority
    · exact base.decided
  · exact inv.current

theorem addThread_completes (inv : Inv layout m q) {stackSize priority : Nat}
    (spared : priority < priorityLvlCnt → HeapSpared layout m stackSize) :
    Completes layout m q (.addThread stackSize priority) := by
  by_cases large : priorityLvlCnt ≤ priority
  · exact ⟨_, q, by simp only [perform, addThread, if_pos large], inv.held, rfl⟩
  · obtain ⟨first, newtcb, answer, tracked, kept, rest⟩ :=
      allocate_pair inv.base.tracked (spared (Nat.lt_of_not_le large))
    by_cases failed : newtcb = null
    · refine ⟨_, q, ?_, inv.allocated tracked kept, rfl⟩
      simp [perform, addThread, large, answer, failed]
    · obtain ⟨fresh, second, stack, again, second_tracked, second_kept, new⟩ := rest failed
      by_cases stackless : stack = null
      · obtain ⟨after, freed, after_tracked, blocks⟩ := release_spec second_tracked newtcb
        refine ⟨{ m with heap := after }, q, ?_, inv.allocated after_tracked ?_, rfl⟩
        · simp [perform, addThread, large, answer, failed, again, stackless, freed]
        · intro old member
          rw [blocks, List.mem_filter]
          exact ⟨second_kept old member, by simpa using fresh old member⟩
      · refine ⟨_, _, ?_, addThread_inv inv (new stackless) stackSize (Nat.lt_of_not_le large), ?_⟩
        · simp [perform, addThread, large, answer, failed, again, stackless]
        · simp only [Scheduler.addThread, enqueueThread_resumeTick, sleepersAfter, Queues.enter]
          rw [Function.update_of_ne (by simp)]

section Launch
variable {c : Core} {idleTcb stack : Nat}

section Idle
omit [DecidableEq Sem]

theorem setupIdle_here : (setupIdle m.kernel c idleTcb stack).idleThread c = idleTcb :=
  Function.update_self _ _ _

theorem setupIdle_others {d : Core} (other : d ≠ c) :
    (setupIdle m.kernel c idleTcb stack).idleThread d = m.kernel.idleThread d :=
  Function.update_of_ne other _ _

theorem setupIdle_idles (base : Base layout m q) (gone : q.place idleTcb = .gone)
    (not_idle : ∀ d, m.kernel.idleThread d ≠ null → m.kernel.idleThread d ≠ idleTcb) (d : Core)
    (there : (setupIdle m.kernel c idleTcb stack).idleThread d ≠ null) :
    IdleTcb (setupIdle m.kernel c idleTcb stack) q
      ((setupIdle m.kernel c idleTcb stack).idleThread d) := by
  by_cases this : d = c
  · subst this
    rw [setupIdle_here]
    exact ⟨gone, Function.update_self _ _ _, Function.update_self _ _ _⟩
  · rw [setupIdle_others this] at there ⊢
    obtain ⟨idle_gone, state, priority⟩ := base.idle d there
    have other := not_idle d there
    exact ⟨idle_gone, (Function.update_of_ne other _ _).trans state,
      (Function.update_of_ne other _ _).trans priority⟩

theorem setupIdle_apart (base : Base layout m q)
    (not_idle : ∀ d, m.kernel.idleThread d ≠ null → m.kernel.idleThread d ≠ idleTcb) (d e : Core)
    (there : (setupIdle m.kernel c idleTcb stack).idleThread d ≠ null)
    (same : (setupIdle m.kernel c idleTcb stack).idleThread d =
      (setupIdle m.kernel c idleTcb stack).idleThread e) : d = e := by
  by_cases d_here : d = c
  · subst d_here
    by_cases e_here : e = d
    · exact e_here.symm
    · rw [setupIdle_here, setupIdle_others e_here] at same
      rw [setupIdle_here] at there
      exact absurd same.symm (not_idle e (same ▸ there))
  · rw [setupIdle_others d_here] at there same
    by_cases e_here : e = c
    · subst e_here
      rw [setupIdle_here] at same
      exact absurd same (not_idle d there)
    · rw [setupIdle_others e_here] at same
      exact base.idleApart d e there same

theorem setupIdle_rests (base : Base layout m q) (off : m.kernel.idleThread c = null)
    (gone : q.place idleTcb = .gone) :
    RootsRest (setupIdle m.kernel c idleTcb stack).toShared q := by
  intro p root others nodes several
  have other : root ≠ idleTcb := by
    rintro rfl
    have here : q.place root = .ready p := base.rep.ready_members.mp (by simp [nodes])
    rw [gone] at here
    exact nomatch here
  simp only [setupIdle, Function.update_of_ne other]
  exact base.rests c off p root others nodes several

theorem IdleTcb.launched {k k' : Kernel Sem} {t : Nat}
    (launched : Launched layout.slots k k' q q' c) (idle : IdleTcb k q t) : IdleTcb k' q' t where
  gone := by rw [launched.place, idle.gone]
  state := by rw [launched.unlinked _ idle.gone, idle.state]
  priority := by rw [launched.priority, idle.priority]

theorem Current.launched (inv : Inv layout m q) {k' : Kernel Sem} (present : idleTcb ≠ null)
    (launched : Launched layout.slots (setupIdle m.kernel c idleTcb stack) k' q q' c) (d : Core) :
    Current k' q' d := by
  by_cases this : d = c
  · subst this
    right
    have current : k'.runPt d = assigned k' q' d := by
      rw [launched.current, Function.update_self, assigned, launched.idleThread]
    have idle : k'.idleThread d ≠ null := by
      rw [launched.idleThread, setupIdle_here]
      exact present
    refine ⟨?_, idle, current⟩
    rw [current]
    exact assigned_ne_null idle
  · have before := inv.current d
    simp only [Current, assigned, launched.current, launched.idleThread, setupIdle_others this,
      Function.update_of_ne this, launched.others d this] at before ⊢
    exact before

end Idle

theorem launch_inv (inv : Inv layout m q) {heap : Heap.State}
    (new : NewBlocks layout m.heap heap idleTcb stack) (off : m.kernel.runPt c = null) :
    ∃ k q', firstDispatch (setupIdle m.kernel c idleTcb stack) c = some k ∧
      Inv layout
        { m with
          heap
          kernel := k
          decisions := ⟨setupIdle m.kernel c idleTcb stack, c, k.runPt c, m.live⟩ :: m.decisions }
        q' ∧
      q'.members .asleep = q.members .asleep ∧ k.resumeTick = m.kernel.resumeTick := by
  have base := inv.base
  obtain ⟨idle_off, free⟩ : m.kernel.idleThread c = null ∧ q.running c = null := by
    rcases inv.current c with ⟨_, idle_off, free⟩ | ⟨on, _⟩
    · exact ⟨idle_off, free⟩
    · exact absurd off on
  have present := layout.slots.ne_null new.slot
  obtain ⟨gone, not_idle, not_stub⟩ := new.unused base
  have level : (setupIdle m.kernel c idleTcb stack).activePriorityCount idlePriority = 1 := by
    simp [setupIdle]
  obtain ⟨k, q', answer, launched, chosen⟩ := firstDispatch_spec
    (setupIdle_rep base.rep c gone stack) free (setupIdle_rests base idle_off gone)
    (by rw [level]; exact Nat.one_ne_zero)
  refine ⟨k, q', answer, ⟨?_, Current.launched inv present launched⟩,
    launched.lists .asleep (by simp), launched.resumeTick⟩
  constructor
  · exact launched.rep
  · simp only [launched.place]
    exact base.live
  · exact new.tracked
  · simp only [launched.stack]
    refine base.owned.grow new.tcb_fresh new.stack_fresh new.apart ?_ new.kept new.tcb_held
      new.stack_held
    rintro t (live | ⟨there, d, same⟩)
    · exact Or.inr (Or.inl (by rwa [launched.place] at live))
    · rw [launched.idleThread] at same
      by_cases this : d = c
      · rw [this, setupIdle_here] at same
        exact Or.inl same.symm
      · rw [setupIdle_others this] at same
        exact Or.inr (Or.inr ⟨there, d, same⟩)
  · simp only [launched.idleThread]
    exact fun d there => (setupIdle_idles base gone not_idle d there).launched launched
  · simp only [launched.idleThread]
    exact setupIdle_apart base not_idle
  · simp only [launched.unlinked _ base.blackHole_gone]
    exact (Function.update_of_ne not_stub _ _).trans base.blackHole
  · intro d _
    simp only [launched.idleLevel, level]
  · simp only [launched.pendSv]
    exact base.switched
  · intro d off_there
    -- `d` is the core that has not started: it runs nothing, and there is no third core
    apply launched.rests
    intro e other
    have apart : d ≠ c := by
      rintro rfl
      rw [launched.idleThread, setupIdle_here] at off_there
      exact present off_there
    rw [Core.eq_of_ne other apart]
    rw [launched.idleThread, setupIdle_others apart] at off_there
    exact (inv.unstarted off_there).2
  · intro decision member
    rcases List.mem_cons.mp member with rfl | old
    · exact DispatchOk.congr chosen base.live
    · exact base.decided decision old

end Launch

theorem initScheduler_completes (inv : Inv layout m q) {c : Core} (off : m.kernel.runPt c = null)
    (spared : HeapSpared layout m 128) : Completes layout m q (.initScheduler c) := by
  obtain ⟨first, idleTcb, answer, tracked, kept, rest⟩ := allocate_pair inv.base.tracked spared
  by_cases failed : idleTcb = null
  · refine ⟨_, q, ?_, (inv.allocated tracked kept).held, rfl⟩
    simp [perform, initScheduler, answer, failed]
  · obtain ⟨_, second, stack, again, second_tracked, second_kept, new⟩ := rest failed
    by_cases stackless : stack = null
    · refine ⟨_, q, ?_, (inv.allocated second_tracked second_kept).held, rfl⟩
      simp [perform, initScheduler, answer, failed, again, stackless]
    · obtain ⟨k, q', launched, after, asleep, ticks⟩ := launch_inv inv (new stackless) off
      refine ⟨_, q', ?_, after, by rw [asleep, ticks]; rfl⟩
      simp [perform, initScheduler, answer, failed, again, stackless, launched]

end Allocation

/-! `kill` -/

/-- Neither `free` of this `kill` wakes a waiter that makes `b_signal` call
`schedule()`. -/
def QuietKill (layout : Layout Sem) (k : Kernel Sem) (cpu : Core) : Prop :=
  let first := k.bthreadsRoot layout.heapLock
  first ≠ null → k.priority first < k.priority (k.runPt cpu) ∧
    (k.nextTcb first ≠ null → k.priority (k.nextTcb first) < k.priority (k.runPt cpu))

instance (layout : Layout Sem) (k : Kernel Sem) (cpu : Core) : Decidable (QuietKill layout k cpu) :=
  inferInstanceAs (Decidable (_ → _ ∧ (_ → _)))

omit [DecidableEq Sem] in
theorem QuietKill.waiters {k : Kernel Sem} {c : Core} (quiet : QuietKill layout k c)
    (rep : Rep layout.slots k.toShared q) :
    (∀ w, (q.members (.waiting layout.heapLock)).head? = some w →
      k.priority w < k.priority (k.runPt c)) ∧
    ∀ w, (q.members (.waiting layout.heapLock)).tail.head? = some w →
      k.priority w < k.priority (k.runPt c) := by
  have chain : Chain null k.nextTcb (k.bthreadsRoot layout.heapLock)
      (q.members (.waiting layout.heapLock)) := rep.joined (.waiting layout.heapLock)
  cases nodes : q.members (.waiting layout.heapLock) with
  | nil => simp
  | cons x rest =>
      rw [nodes] at chain
      obtain ⟨root, present, tail⟩ := chain
      obtain ⟨first, second⟩ := quiet (by rwa [root])
      rw [root] at first second
      constructor
      · intro w head
        obtain rfl : x = w := by simpa using head
        exact first
      · intro w head
        cases rest with
        | nil => simp at head
        | cons y more =>
            obtain rfl : y = w := by simpa using head
            rw [tail.1] at second
            exact second tail.2.1

structure Quietly (layout : Layout Sem) (m m' : Machine Sem) (q q' : Queues Sem) : Prop where
  runPt : m'.kernel.runPt = m.kernel.runPt
  idleThread : m'.kernel.idleThread = m.kernel.idleThread
  stack : m'.kernel.stack = m.kernel.stack
  priority : m'.kernel.priority = m.kernel.priority
  resumeTick : m'.kernel.resumeTick = m.kernel.resumeTick
  running : q'.running = q.running
  alive : ∀ t, q'.place t = .gone ↔ q.place t = .gone
  asleep : q'.members .asleep = q.members .asleep
  waiters : q'.members (.waiting layout.heapLock) = q.members (.waiting layout.heapLock) ∨
    q'.members (.waiting layout.heapLock) = (q.members (.waiting layout.heapLock)).tail

theorem free_quiet (base : Base layout m q) (c : Core) (ptr : Nat) (times : Readings)
    (nobody : ∀ t part, Holder m.kernel q t → pointer m.kernel.stack t part ≠ ptr)
    (quiet : ∀ w, (q.members (.waiting layout.heapLock)).head? = some w →
      m.kernel.priority w < m.kernel.priority (m.kernel.runPt c)) :
    ∃ m' q', free layout m c ptr times = some m' ∧ Base layout m' q' ∧ Quietly layout m m' q q' := by
  by_cases unused : m.heap.tree 0 = null
  · exact ⟨m, q, by rw [free, if_pos unused], base, rfl, rfl, rfl, rfl, rfl, rfl, fun _ => Iff.rfl,
      rfl, Or.inl rfl⟩
  · obtain ⟨heap, freed, tracked, blocks⟩ := release_spec base.tracked ptr
    have freed_base : Base layout { m with heap } q :=
      { base with
        tracked
        owned := base.owned.shrink (fun _ => id) fun t part holds block member same => by
          rw [blocks, List.mem_filter]
          refine ⟨member, ?_⟩
          rw [same]
          simpa using nobody t part holds }
    by_cases nobody_waits : m.kernel.bthreadsRoot layout.heapLock = null
    · refine ⟨{ m with heap }, q, ?_, freed_base, rfl, rfl, rfl, rfl, rfl, rfl, fun _ => Iff.rfl, rfl,
        Or.inl rfl⟩
      simp [free, unused, freed, bSignal, nobody_waits]
    · obtain ⟨w, rest, nodes, root, here⟩ := waiters_cons base.rep nobody_waits
      obtain ⟨answer, moved⟩ := schedUnblock_moved base.rep c nodes
      have calm := Nat.not_le.mpr (quiet w (by simp [nodes]))
      let kernel := { m.kernel with toShared := unblockShared m.kernel.toShared layout.heapLock }
      have performed : free layout m c ptr times = some { m with heap, kernel } := by
        simp [free, unused, freed, bSignal, nobody_waits, answer, calm, kernel]
      have moved_base := freed_base.moved (k := kernel) moved rfl rfl rfl fun d off => by
        simp only [kernel, unblockShared, root]
        exact wake_rests base.rep (base.rests d off) here (by simp) rfl
      refine ⟨_, _, performed, moved_base, rfl, rfl, rfl, moved.priority, ?_,
        wake_running base.rep here (by simp) (by simp), moved.alive, ?_, Or.inr ?_⟩
      · simp only [kernel, unblockShared, enqueueThread_resumeTick]
      · rw [wake_members here (by simp) .asleep (by simp), if_neg (by simp)]
      · rw [wake_members here (by simp) (.waiting layout.heapLock) (by simp), if_pos rfl, nodes]
        rfl

section Kill
variable {c : Core}

theorem retire_holder (inv : Inv layout m q) (busy : NonIdle m.kernel c) {t : Nat}
    (holds : Holder (retire m (m.kernel.runPt c)).kernel
      (q.drop (m.kernel.runPt c) (m.kernel.priority (m.kernel.runPt c))) t) :
    t ≠ m.kernel.runPt c ∧ Holder m.kernel q t := by
  rcases holds with there | ⟨present, d, same⟩
  · have other : t ≠ m.kernel.runPt c := by
      rintro rfl
      exact there (Function.update_self _ _ _)
    refine ⟨other, Or.inl ?_⟩
    rwa [show (q.drop (m.kernel.runPt c) (m.kernel.priority (m.kernel.runPt c))).place t =
      q.place t from Function.update_of_ne other _ _] at there
  · have idle : m.kernel.idleThread d = t := same
    refine ⟨?_, Or.inr ⟨present, d, idle⟩⟩
    rw [← idle]
    exact inv.busy_not_idle busy (by rwa [idle])

theorem retire_base (inv : Inv layout m q) (busy : NonIdle m.kernel c) :
    Base layout (retire m (m.kernel.runPt c))
        (q.drop (m.kernel.runPt c) (m.kernel.priority (m.kernel.runPt c))) ∧
      ∀ t part, Holder (retire m (m.kernel.runPt c)).kernel
          (q.drop (m.kernel.runPt c) (m.kernel.priority (m.kernel.runPt c))) t →
        ∀ own, pointer m.kernel.stack t part ≠ pointer m.kernel.stack (m.kernel.runPt c) own := by
  obtain ⟨given, runs, here⟩ := inv.runs busy
  obtain ⟨idle_on, _⟩ := inv.started busy.1
  have base := inv.base
  have live : q.place (m.kernel.runPt c) ≠ .gone := by simp [here]
  have untouched := dequeueThread_untouched m.kernel.toShared (m.kernel.runPt c)
  have rep := drop_moved base.rep here runs .dead
  have place_of (t : Nat) (other : t ≠ m.kernel.runPt c) :
      (q.drop (m.kernel.runPt c) (m.kernel.priority (m.kernel.runPt c))).place t = q.place t :=
    Function.update_of_ne other _ _
  have gone : (q.drop (m.kernel.runPt c) (m.kernel.priority (m.kernel.runPt c))).place
      (m.kernel.runPt c) = .gone := Function.update_self _ _ _
  have state_of (t : Nat) (other : t ≠ m.kernel.runPt c) :
      (retire m (m.kernel.runPt c)).kernel.state t = m.kernel.state t := by
    simp only [retire, Function.update_of_ne other, untouched.state]
  constructor
  · constructor
    · exact rep
    · intro t
      by_cases this : t = m.kernel.runPt c
      · subst this
        simp [retire, gone]
      · rw [place_of t this, ← base.live t]
        simp [retire, this]
    · exact base.tracked
    · exact base.owned.shrink (fun t holds => (retire_holder inv busy holds).2)
        fun _ _ _ _ member _ => member
    · intro d there
      obtain ⟨idle_gone, state, priority⟩ := base.idle d there
      have other := inv.busy_not_idle busy there
      refine ⟨(place_of _ other).trans idle_gone, (state_of _ other).trans state, ?_⟩
      simp only [retire, untouched.priority]
      exact priority
    · exact base.idleApart
    · rw [state_of _ fun same => live (same ▸ base.blackHole_gone)]
      exact base.blackHole
    · intro d there
      simp only [retire, untouched.active]
      exact base.idleLevel d there
    · exact base.switched
    · intro d off
      -- the other core is off and this one has given up its thread: nobody runs
      apply RootsRest.of_nobody rep
      apply Queues.nobody (if_pos given)
      intro e other
      have free := others_off (fun e _ => inv.current e) idle_on off e other
      simp [Queues.drop, Queues.leave, free]
    · exact base.decided
  · intro t part holds own same
    obtain ⟨other, old⟩ := retire_holder inv busy holds
    exact other (base.owned.distinct t _ part own old (Or.inl live) same).1

structure GivenUp (m m' : Machine Sem) (q q' : Queues Sem) (c : Core) : Prop where
  runPt : m'.kernel.runPt = m.kernel.runPt
  idleThread : m'.kernel.idleThread = m.kernel.idleThread
  resumeTick : m'.kernel.resumeTick = m.kernel.resumeTick
  running : q'.running = fun d => if q.running d = m.kernel.runPt c then null else q.running d
  asleep : q'.members .asleep = q.members .asleep

theorem frees_complete (inv : Inv layout m q) (busy : NonIdle m.kernel c)
    (quiet : QuietKill layout m.kernel c) (freeStack freeTcb : Readings) :
    ∃ m₁ m₂ q₂, free layout (retire m (m.kernel.runPt c)) c (m.kernel.stack (m.kernel.runPt c))
        freeStack = some m₁ ∧
      free layout m₁ c (m.kernel.runPt c) freeTcb = some m₂ ∧ Base layout m₂ q₂ ∧
      GivenUp m m₂ q q₂ c := by
  obtain ⟨given, _, here⟩ := inv.runs busy
  obtain ⟨base, unheld⟩ := retire_base inv busy
  obtain ⟨first_urgent, second_urgent⟩ := quiet.waiters inv.base.rep
  have untouched := dequeueThread_untouched m.kernel.toShared (m.kernel.runPt c)
  have priority : (retire m (m.kernel.runPt c)).kernel.priority = m.kernel.priority :=
    untouched.priority
  have waiters : (q.drop (m.kernel.runPt c) (m.kernel.priority (m.kernel.runPt c))).members
      (.waiting layout.heapLock) = q.members (.waiting layout.heapLock) :=
    drop_members here _ (by simp)
  -- each `free` may wake one waiter, so the second one sees the next waiter at most
  obtain ⟨m₁, q₁, freed, base₁, kept₁⟩ := free_quiet base c (m.kernel.stack (m.kernel.runPt c))
    freeStack (fun t part holds => unheld t part holds .stack) (fun w first => by
      rw [waiters] at first
      rw [priority]
      exact first_urgent w first)
  obtain ⟨m₂, q₂, freed_tcb, base₂, kept₂⟩ := free_quiet base₁ c (m.kernel.runPt c) freeTcb
    (fun t part holds => by
      rw [kept₁.stack]
      rw [Holder, kept₁.idleThread, ne_eq, kept₁.alive] at holds
      exact unheld t part holds .tcb)
    (fun w first => by
      rw [kept₁.priority, kept₁.runPt, priority]
      rcases kept₁.waiters with same | popped
      · rw [same, waiters] at first
        exact first_urgent w first
      · rw [popped, waiters] at first
        exact second_urgent w first)
  refine ⟨m₁, m₂, q₂, freed, freed_tcb, base₂, ?_⟩
  exact {
    runPt := kept₂.runPt.trans kept₁.runPt
    idleThread := kept₂.idleThread.trans kept₁.idleThread
    resumeTick := (kept₂.resumeTick.trans kept₁.resumeTick).trans untouched.resumeTick
    running := kept₂.running.trans kept₁.running
    asleep := (kept₂.asleep.trans kept₁.asleep).trans (drop_members here .asleep (by simp)) }

theorem stub_suspends (inv : Inv layout m q) (busy : NonIdle m.kernel c) {m₂ : Machine Sem}
    {q₂ : Queues Sem} (base : Base layout m₂ q₂) (left : GivenUp m m₂ q q₂ c) (last : Readings) :
    ∃ m' q', suspend { m₂ with kernel := { m₂.kernel with
        runPt := Function.update m₂.kernel.runPt c layout.blackHole } } c last = some m' ∧
      Inv layout m' q' ∧ q'.members .asleep = q.members .asleep ∧
      m'.kernel.resumeTick = m.kernel.resumeTick := by
  obtain ⟨given, _, _⟩ := inv.runs busy
  obtain ⟨idle, _⟩ := inv.started busy.1
  let stubbed := { m₂ with kernel := { m₂.kernel with
    runPt := Function.update m₂.kernel.runPt c layout.blackHole } }
  have stub : stubbed.kernel.runPt c = layout.blackHole := Function.update_self _ _ _
  have stubbed_base : Base layout stubbed q₂ :=
    { base with
      rep := base.rep
      idle := fun d there => ⟨(base.idle d there).gone, (base.idle d there).state,
        (base.idle d there).priority⟩ }
  have own : Own stubbed.kernel q₂ c := by
    rw [Own, stub, if_neg (by rw [base.blackHole]; simp), left.running]
    exact if_pos given
  have others (d : Core) (other : d ≠ c) : Current stubbed.kernel q₂ d := by
    have before := inv.current d
    have apart : q.running d ≠ m.kernel.runPt c := by
      intro same
      exact other (inv.base.rep.listed.apart c d (by rw [given]; exact busy.1)
        (given.trans same.symm)).symm
    simp only [Current, assigned, stubbed, Function.update_of_ne other, left.runPt, left.idleThread,
      left.running, if_neg apart] at before ⊢
    exact before
  obtain ⟨m', q', performed, after, lists, ticks, _⟩ := suspend_inv stubbed_base own
    (by rw [stub]; exact layout.present) (by rw [← left.idleThread] at idle; exact idle) others last
  exact ⟨m', q', performed, after, (lists .asleep (by simp)).trans left.asleep,
    ticks.trans left.resumeTick⟩

theorem kill_completes (inv : Inv layout m q) (busy : NonIdle m.kernel c)
    (quiet : QuietKill layout m.kernel c) (freeStack freeTcb last : Readings) :
    Completes layout m q (.kill c freeStack freeTcb last) := by
  obtain ⟨m₁, m₂, q₂, freed, freed_tcb, base, left⟩ :=
    frees_complete inv busy quiet freeStack freeTcb
  obtain ⟨m', q', performed, after, asleep, ticks⟩ := stub_suspends inv busy base left last
  refine ⟨m', q', ?_, after, by rw [asleep, ticks]; rfl⟩
  obtain ⟨selected, answer, rfl⟩ := Option.map_eq_some_iff.mp performed
  have stack : (retire m (m.kernel.runPt c)).kernel.stack = m.kernel.stack := rfl
  simp only [perform, kill, stack, freed, Option.bind_eq_bind, Option.bind_some, freed_tcb, answer]

end Kill

end MulticoreRtos.Serialized
