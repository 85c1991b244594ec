import MulticoreRtos.StableQueue
import MulticoreRtos.SerializedRuns

/-!
The list of the threads blocked on one semaphore. It uses the link field that a
moment before closed a ring, and `dequeue_thread` has cleared that field by the
time the insertion looks for the end of the list. The arrivals are history: the
blocked threads in the order of their calls of `sched_block`. Calls that make or
end threads are left out of the runs; those on other lists are not.
-/

namespace MulticoreRtos.BlockedLists

open Scheduler Serialized Transition LinkedList StableQueue
open Heap (null)

structure Waiting (Sem : Type) where
  machine : Machine Sem
  arrivals : List Nat

variable {Sem : Type} [DecidableEq Sem] {layout : Layout Sem} {sem : Sem} {s s' : Waiting Sem}
  {q : Queues Sem}

def arrivalsAfter (sem : Sem) (s : Waiting Sem) : Call Sem → List Nat
  | .schedBlock cpu other _ =>
      if other = sem then s.arrivals ++ [s.machine.kernel.runPt cpu] else s.arrivals
  | .schedUnblock _ other =>
      if other = sem then s.arrivals.filter (· ≠ s.machine.kernel.bthreadsRoot sem)
      else s.arrivals
  | _ => s.arrivals

def step (layout : Layout Sem) (sem : Sem) (s : Waiting Sem) (call : Call Sem) :
    Option (Waiting Sem) :=
  (Serialized.step layout s.machine call).map fun machine =>
    { machine, arrivals := arrivalsAfter sem s call }

/-- Calls after which the same threads live. -/
def Resident (_ : Waiting Sem) : Call Sem → Prop
  | .schedule _ _ | .schedBlock _ _ _ | .schedUnblock _ _ | .sleep _ _ _ _ | .unsleep _ _ => True
  | .initScheduler _ | .addThread _ _ | .kill _ _ _ _ => False

omit [DecidableEq Sem] in
instance (s : Waiting Sem) (call : Call Sem) : Decidable (Resident s call) :=
  match call with
  | .schedule _ _ | .schedBlock _ _ _ | .schedUnblock _ _ | .sleep _ _ _ _ | .unsleep _ _ =>
      isTrue trivial
  | .initScheduler _ | .addThread _ _ | .kill _ _ _ _ => isFalse id

structure Start (layout : Layout Sem) (sem : Sem) (s : Waiting Sem) : Prop where
  machine : Reaches (Serialized.step layout) (Serialized.Guard layout) (PowerOn layout) s.machine
  empty : s.machine.kernel.bthreadsRoot sem = null
  arrivals : s.arrivals = []

/-! What holds -/

structure ListOk (sem : Sem) (s : Waiting Sem) : Prop where
  queue : ∃ nodes, Chain null s.machine.kernel.nextTcb (s.machine.kernel.bthreadsRoot sem) nodes ∧
    Stable s.machine.kernel.priority s.arrivals nodes
  blocked : ∀ t ∈ s.arrivals, t ∈ s.machine.live ∧ s.machine.kernel.state t = .blocked
  complete : ∀ t ∈ s.machine.live, s.machine.kernel.state t = .blocked →
    t ∈ s.arrivals ∨ ∃ other, other ≠ sem ∧ OnList s.machine.kernel.toShared t (.waiting other)

/-- `sched_unblock` takes the most urgent waiter, among equals the one that has
waited longest, and the others stay in their order. -/
structure TakesFirst (sem : Sem) (s s' : Waiting Sem) (t : Nat) (rest : List Nat) : Prop where
  before : Chain null s.machine.kernel.nextTcb (s.machine.kernel.bthreadsRoot sem) (t :: rest)
  urgent : ∀ u ∈ s.arrivals, s.machine.kernel.priority t ≤ s.machine.kernel.priority u
  oldest : (s.arrivals.filter (s.machine.kernel.priority · = s.machine.kernel.priority t)).head? =
    some t
  after : Chain null s'.machine.kernel.nextTcb (s'.machine.kernel.bthreadsRoot sem) rest
  active : s'.machine.kernel.state t = .active
  ring : OnList s'.machine.kernel.toShared t (.ready (s.machine.kernel.priority t))

structure BlockedOk (layout : Layout Sem) (sem : Sem) (s : Waiting Sem) : Prop where
  list : ListOk sem s
  completes : ∀ call, Resident s call → s.machine.kernel.schedulerHeld = false →
    Enabled layout s.machine call → ∃ s', step layout sem s call = some s'
  unblocks : ∀ cpu s', step layout sem s (.schedUnblock cpu sem) = some s' →
    ∃ t rest, TakesFirst sem s s' t rest

/-! One call -/

def waitersAfter (k : Kernel Sem) (q : Queues Sem) (sem : Sem) : Call Sem → List Nat
  | .schedBlock cpu other _ =>
      if other = sem then insertByKey k.priority (k.runPt cpu) (q.members (.waiting sem))
      else q.members (.waiting sem)
  | .schedUnblock _ other =>
      if other = sem then (q.members (.waiting sem)).tail else q.members (.waiting sem)
  | _ => q.members (.waiting sem)

variable {m m' : Machine Sem}

/-- A call completes, and leaves the list and the priorities as said. -/
def Leaves (layout : Layout Sem) (m : Machine Sem) (q : Queues Sem) (sem : Sem) (call : Call Sem) :
    Prop :=
  ∃ m' q', perform layout m call = some m' ∧ Serialized.Inv layout m' q' ∧
    q'.members (.waiting sem) = waitersAfter m.kernel q sem call ∧
    m'.kernel.priority = m.kernel.priority

theorem schedBlock_leaves (inv : Serialized.Inv layout m q) {cpu : Core}
    (busy : NonIdle m.kernel cpu) (other : Sem) (times : Readings) :
    Leaves layout m q sem (.schedBlock cpu other times) := by
  obtain ⟨_, runs, here⟩ := inv.runs busy
  obtain ⟨shared, answer, _, moved⟩ := schedBlock_moved inv.base.rep here runs other
  obtain ⟨m', q', performed, after, lists, _, priority⟩ :=
    park_suspends inv busy (Or.inr ⟨other, rfl⟩) moved m.kernel.alarm0 times
  refine ⟨m', q', ?_, after, ?_, priority⟩
  · simp only [perform, answer]
    exact performed
  · rw [lists _ (by simp)]
    by_cases same : other = sem
    · simp [waitersAfter, same]
    · simp [waitersAfter, same, Ne.symm same]

theorem sleep_leaves (inv : Serialized.Inv layout m q) {cpu : Core} (busy : NonIdle m.kernel cpu)
    (now sleepTime : Nat) (times : Readings) :
    Leaves layout m q sem (.sleep cpu now sleepTime times) := by
  by_cases nothing : sleepTime = 0
  · exact ⟨m, q, by simp [perform, nothing], inv, rfl, rfl⟩
  · obtain ⟨_, runs, here⟩ := inv.runs busy
    obtain ⟨shared, alarm, answer, _, moved⟩ := sleep_moved inv.base.rep here runs now sleepTime
    obtain ⟨m', q', performed, after, lists, _, priority⟩ :=
      park_suspends inv busy (Or.inl rfl) moved alarm times
    refine ⟨m', q', ?_, after, ?_, priority⟩
    · simp only [perform, nothing, if_false, answer]
      exact performed
    · rw [lists _ (by simp), if_neg (by simp)]
      rfl

theorem schedUnblock_leaves (inv : Serialized.Inv layout m q) (cpu : Core) {other : Sem}
    (some_waits : m.kernel.bthreadsRoot other ≠ null) :
    Leaves layout m q sem (.schedUnblock cpu other) := by
  obtain ⟨m', t, rest, performed, _, nodes, here, priority, after⟩ :=
    schedUnblock_inv inv cpu some_waits
  refine ⟨m', _, performed, after, ?_, priority⟩
  rw [wake_members here (by simp) _ (by simp)]
  by_cases same : other = sem
  · subst same
    simp [waitersAfter, nodes]
  · simp [waitersAfter, same, Ne.symm same]

theorem unsleep_leaves (inv : Serialized.Inv layout m q) (first second : Nat) :
    Leaves layout m q sem (.unsleep first second) := by
  rcases unsleep_inv inv first second with ⟨_, unchanged⟩ | ⟨t, rest, _, here, _, priority, after⟩
  · exact ⟨m, q, by simp only [perform, unchanged], inv, rfl, rfl⟩
  · refine ⟨_, _, rfl, after, ?_, priority⟩
    rw [wake_members here (by simp) _ (by simp), if_neg (by simp)]
    rfl

theorem schedule_leaves (inv : Serialized.Inv layout m q) {cpu : Core}
    (started : m.kernel.runPt cpu ≠ null) (times : Readings) :
    Leaves layout m q sem (.schedule cpu times) := by
  obtain ⟨m', q', performed, after, lists, _, priority⟩ := suspend_inv inv.base (inv.own started)
    started (inv.started started).1 (fun d _ => inv.current d) times
  exact ⟨m', q', performed, after, lists _ (by simp), priority⟩

theorem call_leaves (inv : Serialized.Inv layout m q) {call : Call Sem}
    (enabled : Enabled layout m call) (resident : Resident s call) :
    Leaves layout m q sem call := by
  cases call with
  | schedule cpu times => exact schedule_leaves inv enabled times
  | schedBlock cpu other times => exact schedBlock_leaves inv enabled other times
  | schedUnblock cpu other => exact schedUnblock_leaves inv cpu enabled.2
  | sleep cpu now sleepTime times => exact sleep_leaves inv enabled now sleepTime times
  | unsleep first second => exact unsleep_leaves inv first second
  | initScheduler cpu | addThread stackSize priority | kill cpu freeStack freeTcb last =>
      exact resident.elim

/-! Runs -/

structure Inv (layout : Layout Sem) (sem : Sem) (s : Waiting Sem) (q : Queues Sem) : Prop where
  machine : Serialized.Inv layout s.machine q
  stable : Stable s.machine.kernel.priority s.arrivals (q.members (.waiting sem))

omit [DecidableEq Sem] in
theorem waiters_chain (inv : Serialized.Inv layout m q) (sem : Sem) :
    Chain null m.kernel.nextTcb (m.kernel.bthreadsRoot sem) (q.members (.waiting sem)) :=
  inv.base.rep.joined (.waiting sem)

omit [DecidableEq Sem] in
theorem waiting_place (inv : Serialized.Inv layout m q) (t : Nat) :
    t ∈ q.members (.waiting sem) ↔ q.place t = .waiting sem :=
  inv.base.rep.listed.members t _ (by simp)

theorem inv_step (inv : Inv layout sem s q) {call : Call Sem} (resident : Resident s call)
    (stepped : step layout sem s call = some s') : ∃ q', Inv layout sem s' q' := by
  obtain ⟨machine, moved, rfl⟩ := Option.map_eq_some_iff.mp stepped
  obtain ⟨_, enabled, performed⟩ := step_enabled moved
  have leaves : Leaves layout s.machine q sem call := call_leaves inv.machine enabled resident
  obtain ⟨after, q', result, machine_inv, waiters, priority⟩ := leaves
  obtain rfl : after = machine := Option.some.inj (result.symm.trans performed)
  refine ⟨q', machine_inv, ?_⟩
  rw [waiters, priority]
  cases call with
  | schedBlock cpu other times =>
      by_cases same : other = sem
      · simp only [waitersAfter, arrivalsAfter, same, if_true]
        apply inv.stable.insert
        -- the caller is on a ring
        rw [waiting_place inv.machine, (inv.machine.runs enabled).2.2]
        simp
      · simpa only [waitersAfter, arrivalsAfter, same, if_false] using inv.stable
  | schedUnblock cpu other =>
      by_cases same : other = sem
      · simp only [waitersAfter, arrivalsAfter, same, if_true]
        obtain ⟨t, rest, nodes, root, _⟩ := waiters_cons inv.machine.base.rep (same ▸ enabled.2)
        rw [root, nodes]
        exact (nodes ▸ inv.stable).pop
      · simpa only [waitersAfter, arrivalsAfter, same, if_false] using inv.stable
  | initScheduler cpu | addThread stackSize priority | kill cpu freeStack freeTcb last =>
      exact resident.elim
  | schedule cpu times | sleep cpu now sleepTime times | unsleep first second => exact inv.stable

theorem run_inv (reached : Reaches (step layout sem) Resident (Start layout sem) s) :
    ∃ q, Inv layout sem s q := by
  apply reached.invariant (fun s => ∃ q, Inv layout sem s q)
  · intro s begun
    obtain ⟨q, inv⟩ := Serialized.run_inv begun.machine
    refine ⟨q, inv, ?_⟩
    rw [(waiters_chain inv sem).null_iff.mp begun.empty, begun.arrivals]
    exact Stable.nil
  · rintro before call after ⟨q, inv⟩ resident stepped
    exact inv_step inv resident stepped

omit [DecidableEq Sem] in
theorem listOk (inv : Inv layout sem s q) : ListOk sem s := by
  have rep := inv.machine.base.rep
  constructor
  · exact ⟨_, waiters_chain inv.machine sem, inv.stable⟩
  · intro t arrived
    have here := (waiting_place inv.machine t).mp ((inv.stable.mem_iff t).mpr arrived)
    have fits := rep.fits here
    exact ⟨(inv.machine.base.live t).mpr (by simp [here]), fits.2⟩
  · intro t live blocked
    have fits := rep.stated t
    cases here : q.place t with
    | gone => exact absurd here ((inv.machine.base.live t).mp live)
    | ready p =>
        rw [here] at fits
        obtain ⟨_, _, ready, _⟩ := fits
        simp [blocked] at ready
    | asleep =>
        rw [here] at fits
        exact absurd (blocked.symm.trans fits.2) (by simp)
    | waiting other =>
        by_cases same : other = sem
        · subst same
          exact Or.inl ((inv.stable.mem_iff t).mp ((waiting_place inv.machine t).mpr here))
        · exact Or.inr ⟨other, same, (on_list rep t _).mpr ⟨by simp, here⟩⟩

theorem takesFirst (inv : Inv layout sem s q) {cpu : Core}
    (stepped : step layout sem s (.schedUnblock cpu sem) = some s') :
    ∃ t rest, TakesFirst sem s s' t rest := by
  obtain ⟨machine, moved, rfl⟩ := Option.map_eq_some_iff.mp stepped
  obtain ⟨_, enabled, performed⟩ := step_enabled moved
  obtain ⟨after, t, rest, result, kernel, nodes, here, _, machine_inv⟩ :=
    schedUnblock_inv inv.machine cpu enabled.2
  obtain rfl : after = machine := Option.some.inj (result.symm.trans performed)
  have stable := inv.stable
  rw [nodes] at stable
  have before := waiters_chain inv.machine sem
  rw [nodes] at before
  refine ⟨t, rest, before, stable.first.1, stable.first.2, ?_, ?_, ?_⟩
  · have chain := waiters_chain machine_inv sem
    rwa [wake_members here (by simp) _ (by simp), if_pos rfl] at chain
  · rw [kernel]
    simp only [unblockShared, enqueueThread_state, before.1, Function.update_self]
  · have placed : (q.wake t (s.machine.kernel.priority t) rest).place t =
        .ready (s.machine.kernel.priority t) := Function.update_self _ _ _
    exact (on_list machine_inv.base.rep t _).mpr ⟨by simp, placed⟩

/-- Along every run of such calls the list is a stable priority queue of the
blocked threads, no call gets stuck, and each `sched_unblock` takes its first. -/
theorem blocked_list_along_runs
    (reached : Reaches (step layout sem) Resident (Start layout sem) s) :
    BlockedOk layout sem s := by
  obtain ⟨q, inv⟩ := run_inv reached
  constructor
  · exact listOk inv
  · intro call resident unlocked enabled
    have leaves : Leaves layout s.machine q sem call := call_leaves inv.machine enabled resident
    obtain ⟨m', _, performed, _⟩ := leaves
    refine ⟨⟨m', arrivalsAfter sem s call⟩, ?_⟩
    simp [step, Serialized.step, unlocked, enabled, performed]
  · exact fun cpu s' stepped => takesFirst inv stepped

def threeThreads : List (Call Unit) :=
  [.addThread 1024 0, .addThread 1024 1, .addThread 1024 1, .initScheduler .cpu0]

def napThenBlock : List (Call Unit) :=
  [.sleep .cpu0 0 5 readings, .schedBlock .cpu0 () readings, .schedBlock .cpu0 () readings,
    .unsleep 5000 5000, .schedule .cpu0 readings, .schedBlock .cpu0 () readings]

theorem blocked_list_along_runs_board :
    ∃ m s, exec (Serialized.step board) reset threeThreads = some m ∧
      exec (step board ()) ⟨m, []⟩ napThenBlock = some s ∧ s.arrivals.length = 3 ∧
      s.machine.kernel.bthreadsRoot () = s.arrivals.getLast? ∧ BlockedOk board () s := by
  obtain ⟨m, executed, empty, allowed, s, blocked, three, last⟩ :
      ∃ m ∈ exec (Serialized.step board) reset threeThreads,
        m.kernel.bthreadsRoot () = null ∧ Allowed (step board ()) Resident ⟨m, []⟩ napThenBlock ∧
        ∃ s ∈ exec (step board ()) ⟨m, []⟩ napThenBlock, s.arrivals.length = 3 ∧
          s.machine.kernel.bthreadsRoot () = s.arrivals.getLast? := by
    decide +kernel
  have guarded : Allowed (Serialized.step board) (Serialized.Guard board) reset threeThreads := by
    decide +kernel
  have begun : Start board () ⟨m, []⟩ :=
    ⟨exec_reaches threeThreads (.start reset_powerOn) guarded executed, empty, rfl⟩
  exact ⟨m, s, executed, blocked, three, last,
    blocked_list_along_runs (exec_reaches napThenBlock (.start begun) allowed blocked)⟩

end MulticoreRtos.BlockedLists
