import Mathlib.Algebra.BigOperators.Group.Finset.Basic
import MulticoreRtos.SerializedRuns

/-!
`scheduler_stats`: sums of the 16-bit counters of the levels. Along a run they
count threads, and none of them wraps but the lifetime count.
-/

namespace MulticoreRtos.Serialized

open Scheduler Transition
open Heap (null)

variable {Sem : Type} {layout : Layout Sem} {m m' : Machine Sem} {q : Queues Sem}

/-- `scheduler_stats_t`, with fields of type `uint16_t`. -/
structure SchedulerStats where
  runningThreadCnt : Nat
  activeThreadCnt : Nat
  lifetimeThreadCnt : Nat
  deriving DecidableEq

def addLevels (count : Nat → Nat) : Nat :=
  (List.range priorityLvlCnt).foldl (fun sum i => (sum + count i) % 2 ^ 16) 0

def schedulerStats (k : Kernel Sem) : SchedulerStats where
  runningThreadCnt := addLevels k.runningPriorityCount
  activeThreadCnt := addLevels k.activePriorityCount
  lifetimeThreadCnt := k.lifetimeThreadCount % 2 ^ 16

section Sums

theorem foldl_wraps (count : Nat → Nat) (levels : List Nat) (sum : Nat) :
    levels.foldl (fun sum i => (sum + count i) % 2 ^ 16) (sum % 2 ^ 16) =
      (sum + (levels.map count).sum) % 2 ^ 16 := by
  induction levels generalizing sum with
  | nil => simp
  | cons i rest ih =>
      rw [List.foldl_cons, Nat.mod_add_mod, ih, List.map_cons, List.sum_cons, Nat.add_assoc]

theorem addLevels_small {count : Nat → Nat}
    (small : ∑ p ∈ Finset.range priorityLvlCnt, count p < 2 ^ 16) :
    addLevels count = ∑ p ∈ Finset.range priorityLvlCnt, count p := by
  have wrapped := foldl_wraps count (List.range priorityLvlCnt) 0
  rw [Nat.zero_mod, Nat.zero_add] at wrapped
  rw [addLevels, wrapped]
  exact Nat.mod_eq_of_lt small

theorem sum_population {k : Shared Sem} {live : Finset Nat}
    (levels : ∀ t ∈ live, k.priority t < priorityLvlCnt) (wanted : ThreadState) :
    ∑ p ∈ Finset.range priorityLvlCnt, population k live p wanted =
      (live.filter fun t => k.state t = wanted).card := by
  have inside : ((live.filter fun t => k.state t = wanted : Finset Nat) : Set Nat).MapsTo k.priority
      (Finset.range priorityLvlCnt) := by
    intro t member
    exact Finset.mem_coe.mpr
      (Finset.mem_range.mpr (levels t (Finset.mem_filter.mp (Finset.mem_coe.mp member)).1))
  rw [Finset.card_eq_sum_card_fiberwise inside]
  apply Finset.sum_congr rfl
  intro p _
  rw [population, Finset.filter_filter]
  congr 1
  ext t
  simp only [Finset.mem_filter, and_comm]

end Sums

theorem Inv.level_small (inv : Inv layout m q) (t : Nat) (live : t ∈ m.live) :
    m.kernel.priority t < priorityLvlCnt :=
  (inv.base.rep.stated t).bounded ((inv.base.live t).mp live)

theorem Inv.few_live (inv : Inv layout m q) : m.live.card < 2 ^ 16 := by
  have inside : m.live ⊆ layout.slots.addresses := by
    intro t live
    exact inv.base.rep.listed.inside t ((inv.base.live t).mp live)
  calc m.live.card ≤ layout.slots.addresses.card := Finset.card_le_card inside
    _ ≤ walkFuel := layout.slots.few
    _ < 2 ^ 16 := by decide

/-- The counters of the levels add up to the live threads in a state. -/
theorem Inv.addLevels_card (inv : Inv layout m q) {count : Nat → Nat} {wanted : ThreadState}
    (counts : ∀ p < priorityLvlCnt, count p = population m.kernel.toShared m.live p wanted) :
    addLevels count = (m.live.filter fun t => m.kernel.state t = wanted).card := by
  have total : ∑ p ∈ Finset.range priorityLvlCnt, count p =
      (m.live.filter fun t => m.kernel.state t = wanted).card := by
    rw [← sum_population inv.level_small wanted]
    exact Finset.sum_congr rfl fun p member => counts p (Finset.mem_range.mp member)
  rw [addLevels_small, total]
  rw [total]
  exact lt_of_le_of_lt (Finset.card_filter_le _ _) inv.few_live

theorem Inv.running_card (inv : Inv layout m q) :
    (m.live.filter fun t => m.kernel.state t = .running).card =
      [Core.cpu0, .cpu1].countP fun c => NonIdle m.kernel c := by
  have same : (m.live.filter fun t => m.kernel.state t = .running) =
      (([Core.cpu0, .cpu1].filter fun c => NonIdle m.kernel c).map m.kernel.runPt).toFinset := by
    ext t
    simp only [Finset.mem_filter, List.mem_toFinset, List.mem_map, List.mem_filter,
      decide_eq_true_eq]
    constructor
    · rintro ⟨live, runs⟩
      have here := (inv.base.live t).mp live
      obtain ⟨c, rfl⟩ := (inv.runs_iff here).mp runs
      have there := inv.base.rep.listed.ne_null _ here
      refine ⟨c, ⟨by cases c <;> simp, there, fun resting => here ?_⟩, rfl⟩
      rw [resting]
      exact (inv.base.idle c (inv.started there).1).gone
    · rintro ⟨c, ⟨_, busy⟩, rfl⟩
      obtain ⟨_, runs, here⟩ := inv.runs busy
      exact ⟨(inv.base.live _).mpr (by simp [here]), runs⟩
  have distinct : (([Core.cpu0, .cpu1].filter fun c => NonIdle m.kernel c).map m.kernel.runPt).Nodup := by
    apply List.Nodup.map_on
    · intro c member d _ equal
      exact inv.current_apart (of_decide_eq_true (List.mem_filter.mp member).2).1 equal
    · exact List.Nodup.filter _ (by decide)
  rw [same, List.toFinset_card_of_nodup distinct, List.length_map, List.countP_eq_length_filter]

/-! The lifetime count. -/

structure Childless (m m' : Machine Sem) : Prop where
  live : m'.live ⊆ m.live
  lifetime : m'.kernel.lifetimeThreadCount = m.kernel.lifetimeThreadCount

theorem Childless.then {m₁ m₂ m₃ : Machine Sem} (first : Childless m₁ m₂)
    (second : Childless m₂ m₃) : Childless m₁ m₃ :=
  ⟨second.live.trans first.live, second.lifetime.trans first.lifetime⟩

theorem settle_lifetime (k : Kernel Sem) (c : Core) (now : Nat) :
    (settle k c now).lifetimeThreadCount = k.lifetimeThreadCount := by
  by_cases resting : k.state (k.runPt c) = .idle
  · simp only [settle, if_pos resting, exitIdle]
  · simp only [settle, if_neg resting]

theorem selectNext_lifetime {k k' : Kernel Sem} {c : Core} {now : Nat}
    (selected : selectNext k c now = some k') :
    k'.lifetimeThreadCount = k.lifetimeThreadCount := by
  obtain ⟨pri, _, rfl⟩ := Option.map_eq_some_iff.mp selected
  by_cases idles : pri = idlePriority
  · simp only [if_pos idles, enterIdle]
  · simp only [if_neg idles]

theorem runSchedule_childless {c : Core} {times : Readings}
    (scheduled : runSchedule m c times = some m') : Childless m m' := by
  obtain ⟨k, selected, rfl⟩ := Option.map_eq_some_iff.mp scheduled
  exact ⟨Finset.Subset.refl _, (selectNext_lifetime selected).trans (settle_lifetime _ _ _)⟩

theorem switch_childless (m : Machine Sem) (c : Core) (sp : Nat) :
    Childless m (switch m c sp) := by
  by_cases pending : m.kernel.pendSv c
  · rw [switch, if_pos pending]
    exact ⟨Finset.Subset.refl _, rfl⟩
  · rw [switch, if_neg pending]
    exact ⟨Finset.Subset.refl _, rfl⟩

theorem suspend_childless {c : Core} {times : Readings}
    (suspended : suspend m c times = some m') : Childless m m' := by
  obtain ⟨next, scheduled, rfl⟩ := Option.map_eq_some_iff.mp suspended
  exact (runSchedule_childless scheduled).then (switch_childless _ _ _)

theorem firstDispatch_lifetime {k k' : Kernel Sem} {c : Core}
    (dispatched : firstDispatch k c = some k') :
    k'.lifetimeThreadCount = k.lifetimeThreadCount := by
  obtain ⟨pri, _, rfl⟩ := Option.map_eq_some_iff.mp dispatched
  by_cases idles : pri = idlePriority
  · simp only [if_pos idles]
  · simp only [if_neg idles]

theorem initScheduler_childless {c : Core} (launched : initScheduler layout m c = some m') :
    Childless m m' := by
  obtain ⟨⟨_, idleTcb⟩, _, launched⟩ := Option.bind_eq_some_iff.mp launched
  by_cases failed : idleTcb = null
  · simp only [if_pos failed, Option.some.injEq] at launched
    subst launched
    exact ⟨Finset.Subset.refl _, rfl⟩
  · simp only [if_neg failed] at launched
    obtain ⟨⟨_, stack⟩, _, launched⟩ := Option.bind_eq_some_iff.mp launched
    by_cases stackless : stack = null
    · simp only [if_pos stackless, Option.some.injEq] at launched
      subst launched
      exact ⟨Finset.Subset.refl _, rfl⟩
    · simp only [if_neg stackless] at launched
      obtain ⟨k, dispatched, rfl⟩ := Option.map_eq_some_iff.mp launched
      have counted : k.lifetimeThreadCount = m.kernel.lifetimeThreadCount :=
        (firstDispatch_lifetime dispatched).trans rfl
      exact ⟨Finset.Subset.refl _, counted⟩

theorem sleep_lifetime {k k' : Kernel Sem} {c : Core} {now sleepTime : Nat}
    (slept : sleep k c now sleepTime = some k') :
    k'.lifetimeThreadCount = k.lifetimeThreadCount := by
  obtain ⟨_, _, rfl⟩ := Option.map_eq_some_iff.mp slept
  rfl

variable [DecidableEq Sem]

theorem schedBlock_lifetime {k k' : Kernel Sem} {c : Core} {s : Sem}
    (blocked : schedBlock k c s = some k') : k'.lifetimeThreadCount = k.lifetimeThreadCount := by
  obtain ⟨_, _, rfl⟩ := Option.map_eq_some_iff.mp blocked
  rfl

theorem bSignal_childless {c : Core} {sem : Sem} {times : Readings}
    (signalled : bSignal m c sem times = some m') : Childless m m' := by
  by_cases nobody : m.kernel.bthreadsRoot sem = null
  · rw [bSignal, if_pos nobody, Option.some.injEq] at signalled
    subst signalled
    exact ⟨Finset.Subset.refl _, rfl⟩
  · rw [bSignal, if_neg nobody] at signalled
    obtain ⟨⟨kernel, higher⟩, unblocked, signalled⟩ := Option.bind_eq_some_iff.mp signalled
    have woken : Childless m { m with kernel } := by
      refine ⟨Finset.Subset.refl _, ?_⟩
      rw [schedUnblock_kernel unblocked]
    by_cases preempts : higher = true
    · simp only [if_pos preempts] at signalled
      exact woken.then (runSchedule_childless signalled)
    · simp only [if_neg preempts, Option.some.injEq] at signalled
      exact signalled ▸ woken

theorem free_childless {c : Core} {ptr : Nat} {times : Readings}
    (freed : free layout m c ptr times = some m') : Childless m m' := by
  rcases free_kernel freed with rfl | ⟨heap, signalled⟩
  · exact ⟨Finset.Subset.refl _, rfl⟩
  · have released : Childless m { m with heap } := ⟨Finset.Subset.refl _, rfl⟩
    exact released.then (bSignal_childless signalled)

theorem kill_childless {c : Core} {freeStack freeTcb last : Readings}
    (killed : kill layout m c freeStack freeTcb last = some m') : Childless m m' := by
  obtain ⟨m₁, stack_freed, killed⟩ := Option.bind_eq_some_iff.mp killed
  obtain ⟨m₂, tcb_freed, killed⟩ := Option.bind_eq_some_iff.mp killed
  obtain ⟨m₃, scheduled, switched⟩ := Option.bind_eq_some_iff.mp killed
  cases switched
  have retired : Childless m (retire m (m.kernel.runPt c)) := ⟨Finset.erase_subset _ _, rfl⟩
  have stubbed : Childless m₂ { m₂ with kernel := { m₂.kernel with
      runPt := Function.update m₂.kernel.runPt c layout.blackHole } } :=
    ⟨Finset.Subset.refl _, rfl⟩
  exact ((((retired.then (free_childless stack_freed)).then (free_childless tcb_freed)).then
    stubbed).then (runSchedule_childless scheduled)).then (switch_childless _ _ _)

/-- A call that makes a thread is an `add_thread` that both blocks were found for. -/
theorem perform_counts (inv : Inv layout m q) {call : Call Sem} (guarded : Guard layout m call)
    (performed : perform layout m call = some m') :
    Childless m m' ∨ (¬ m'.live ⊆ m.live ∧
      m'.kernel.lifetimeThreadCount = (m.kernel.lifetimeThreadCount + 1) % 2 ^ 32) := by
  cases call with
  | initScheduler c => exact .inl (initScheduler_childless performed)
  | addThread stackSize priority =>
      by_cases large : priorityLvlCnt ≤ priority
      · simp only [perform, addThread, if_pos large, Option.some.injEq] at performed
        subst performed
        exact .inl ⟨Finset.Subset.refl _, rfl⟩
      · obtain ⟨first, newtcb, answer, _, _, rest⟩ :=
          allocate_pair inv.base.tracked (guarded (Nat.lt_of_not_le large))
        simp only [perform, addThread, if_neg large, answer, Option.bind_eq_bind, Option.bind_some]
          at performed
        by_cases failed : newtcb = null
        · simp only [if_pos failed, Option.some.injEq] at performed
          subst performed
          exact .inl ⟨Finset.Subset.refl _, rfl⟩
        · obtain ⟨_, second, stack, again, _, _, new⟩ := rest failed
          simp only [if_neg failed, again, Option.bind_some] at performed
          by_cases stackless : stack = null
          · simp only [if_pos stackless] at performed
            obtain ⟨heap, _, rfl⟩ := Option.map_eq_some_iff.mp performed
            exact .inl ⟨Finset.Subset.refl _, rfl⟩
          · simp only [if_neg stackless, Option.some.injEq] at performed
            subst performed
            refine .inr ⟨fun inside => ?_, rfl⟩
            have old := (inv.base.live newtcb).mp (inside (Finset.mem_insert_self _ _))
            exact old ((new stackless).unused inv.base).1
  | schedule c times => exact .inl (suspend_childless performed)
  | schedBlock c s times =>
      obtain ⟨kernel, blocked, suspended⟩ := Option.bind_eq_some_iff.mp performed
      have parked : Childless m { m with kernel } :=
        ⟨Finset.Subset.refl _, schedBlock_lifetime blocked⟩
      exact .inl (parked.then (suspend_childless suspended))
  | schedUnblock c s =>
      obtain ⟨⟨kernel, _⟩, unblocked, woken⟩ := Option.bind_eq_some_iff.mp performed
      cases woken
      refine .inl ⟨Finset.Subset.refl _, ?_⟩
      rw [schedUnblock_kernel unblocked]
  | sleep c now sleepTime times =>
      by_cases nothing : sleepTime = 0
      · simp only [perform, if_pos nothing, Option.some.injEq] at performed
        subst performed
        exact .inl ⟨Finset.Subset.refl _, rfl⟩
      · simp only [perform, if_neg nothing] at performed
        obtain ⟨kernel, slept, suspended⟩ := Option.bind_eq_some_iff.mp performed
        have parked : Childless m { m with kernel } :=
          ⟨Finset.Subset.refl _, sleep_lifetime slept⟩
        exact .inl (parked.then (suspend_childless suspended))
  | unsleep first second =>
      cases performed
      refine .inl ⟨Finset.Subset.refl _, ?_⟩
      by_cases nobody : m.kernel.sleepScheduleRoot = null
      · simp only [unsleep, if_pos nobody]
      · simp only [unsleep, if_neg nobody]
  | kill c freeStack freeTcb last => exact .inl (kill_childless performed)

def births (layout : Layout Sem) : Machine Sem → List (Call Sem) → Nat
  | _, [] => 0
  | m, call :: rest =>
      match step layout m call with
      | none => 0
      | some m' => (if m'.live ⊆ m.live then 0 else 1) + births layout m' rest

theorem run_counts (calls : List (Call Sem)) (inv : Inv layout m q)
    (allowed : Allowed (step layout) (Guard layout) m calls)
    (executed : exec (step layout) m calls = some m') :
    m'.kernel.lifetimeThreadCount % 2 ^ 32 =
      (m.kernel.lifetimeThreadCount + births layout m calls) % 2 ^ 32 := by
  induction calls generalizing m q with
  | nil =>
      cases executed
      rfl
  | cons call rest ih =>
      cases stepped : step layout m call with
      | none => simp only [exec, stepped, reduceCtorEq] at executed
      | some next =>
          simp only [exec, stepped] at executed
          simp only [Allowed, stepped] at allowed
          obtain ⟨q', inv', _⟩ := inv_step inv allowed.1 stepped
          rw [ih inv' allowed.2 executed]
          simp only [births, stepped]
          rcases perform_counts inv allowed.1 (step_enabled stepped).2.2 with childless | ⟨new, more⟩
          · rw [if_pos childless.live, childless.lifetime, Nat.zero_add]
          · rw [if_neg new, more, Nat.mod_add_mod, Nat.add_assoc]

structure LevelExact (m : Machine Sem) (p : Nat) : Prop where
  running : m.kernel.runningPriorityCount p = population m.kernel.toShared m.live p .running
  active : m.kernel.activePriorityCount p = population m.kernel.toShared m.live p .active
  small : m.kernel.runningPriorityCount p + m.kernel.activePriorityCount p < 2 ^ 16

omit [DecidableEq Sem] in
theorem Inv.level_exact (inv : Inv layout m q) {p : Nat} (below : p < priorityLvlCnt) :
    LevelExact m p := by
  have queues := rep_runQueueOk inv.base.rep inv.base.live
  refine ⟨queues.running p below, queues.active p below, ?_⟩
  have apart : Disjoint
      (m.live.filter fun t => m.kernel.priority t = p ∧ m.kernel.state t = .running)
      (m.live.filter fun t => m.kernel.priority t = p ∧ m.kernel.state t = .active) := by
    apply Finset.disjoint_filter.mpr
    rintro t _ ⟨_, runs⟩ ⟨_, waits⟩
    exact nomatch runs.symm.trans waits
  rw [queues.running p below, queues.active p below, population, population,
    ← Finset.card_union_of_disjoint apart]
  exact lt_of_le_of_lt (Finset.card_le_card (Finset.union_subset (Finset.filter_subset _ _)
    (Finset.filter_subset _ _))) inv.few_live

/-- After every run of guarded calls from reset, `scheduler_stats` answers how many
cores are not idle, how many live threads are active, and how many threads there
have ever been, the last in 16 bits; no counter of a level has wrapped. -/
theorem scheduler_stats_along_runs {before : Machine Sem} (on : PowerOn layout before)
    (cleared : before.kernel.lifetimeThreadCount = 0) (calls : List (Call Sem))
    (allowed : Allowed (step layout) (Guard layout) before calls)
    (executed : exec (step layout) before calls = some m') :
    schedulerStats m'.kernel =
      { runningThreadCnt := [Core.cpu0, .cpu1].countP fun c => NonIdle m'.kernel c
        activeThreadCnt := (m'.live.filter fun t => m'.kernel.state t = .active).card
        lifetimeThreadCnt := births layout before calls % 2 ^ 16 } ∧
      ∀ p < priorityLvlCnt, LevelExact m' p := by
  obtain ⟨q, inv⟩ := run_inv (exec_reaches calls (.start on) allowed executed)
  have queues := rep_runQueueOk inv.base.rep inv.base.live
  have counted := run_counts calls (powerOn_inv on) allowed executed
  rw [cleared, Nat.zero_add] at counted
  refine ⟨?_, fun p below => inv.level_exact below⟩
  rw [schedulerStats, inv.addLevels_card queues.running, inv.running_card,
    inv.addLevels_card queues.active]
  congr 1
  calc m'.kernel.lifetimeThreadCount % 2 ^ 16
      = m'.kernel.lifetimeThreadCount % 2 ^ 32 % 2 ^ 16 :=
        (Nat.mod_mod_of_dvd _ (by decide)).symm
    _ = births layout before calls % 2 ^ 32 % 2 ^ 16 := by rw [counted]
    _ = births layout before calls % 2 ^ 16 := Nat.mod_mod_of_dvd _ (by decide)

theorem scheduler_stats_along_runs_board :
    ∃ m ∈ exec (step board) reset shortRun,
      births board reset shortRun = 2 ∧ schedulerStats m.kernel =
        { runningThreadCnt := [Core.cpu0, .cpu1].countP fun c => NonIdle m.kernel c
          activeThreadCnt := (m.live.filter fun t => m.kernel.state t = .active).card
          lifetimeThreadCnt := births board reset shortRun % 2 ^ 16 } ∧
      ∀ p < priorityLvlCnt, LevelExact m p := by
  obtain ⟨m, executed, _⟩ : ∃ m ∈ exec (step board) reset shortRun, m.live.card = 1 := by
    decide +kernel
  have allowed : Allowed (step board) (Guard board) reset shortRun := by decide +kernel
  exact ⟨m, executed, by decide +kernel,
    scheduler_stats_along_runs reset_powerOn rfl shortRun allowed executed⟩

end MulticoreRtos.Serialized
