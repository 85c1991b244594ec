import MulticoreRtos.RosterMirror

/-!
The serialized machine refines the roster: every call is one move, and the links
in memory spell out the lists after it.
-/

namespace MulticoreRtos.Serialized

open Scheduler Transition LinkedList
open Heap (null)

variable {Sem : Type} [DecidableEq Sem] {layout : Layout Sem} {m m' : Machine Sem}
  {q q' : Queues Sem} {r : Roster Nat Sem}

/-- The move of each call. A request for memory may fail, and a sleep of no time is none. -/
def Answers (lock : Sem) : Call Sem → Move Nat Sem → Prop
  | .initScheduler c, move => move = .dispatch c ∨ move = .stay
  | .addThread _ priority, move =>
      (priority < priorityLvlCnt ∧ ∃ t, move = .spawn t priority) ∨ move = .stay
  | .schedule c _, move => move = .dispatch c
  | .schedBlock c s _, move => move = .block c s
  | .schedUnblock _ s, move => move = .wake s
  | .sleep c now sleepTime _, move =>
      move = if sleepTime = 0 then .stay else .sleep c (tickAfter now sleepTime)
  | .unsleep _ _, move => move = .unsleep
  | .kill c _ _ _, move => move = .retire c lock

/-- The state in the TCB of `t` says which list it is on and whether a core runs it. -/
structure StateShown (k : Shared Sem) (r : Roster Nat Sem) (t : Nat) : Prop where
  running : k.state t = .running ↔ ∃ c, r.running c = some t
  active : k.state t = .active ↔ (∃ p, t ∈ r.ready p) ∧ ∀ c, r.running c ≠ some t
  sleeping : k.state t = .sleeping ↔ t ∈ r.asleep
  blocked : k.state t = .blocked ↔ ∃ s, t ∈ r.waiting s

/-- The roster is what the links, the roots, the TCBs and `RunPt` say. -/
structure Shows (m : Machine Sem) (r : Roster Nat Sem) : Prop where
  ready : ∀ p, Ring null m.kernel.nextTcb m.kernel.prevTcb (m.kernel.threadSchedule p) (r.ready p) ∧
    (r.ready p).Nodup
  asleep : Chain null m.kernel.nextTcb m.kernel.sleepScheduleRoot r.asleep
  waiting : ∀ s, Chain null m.kernel.nextTcb (m.kernel.bthreadsRoot s) (r.waiting s)
  running : ∀ c, r.running c =
    if m.kernel.runPt c = null ∨ m.kernel.runPt c = m.kernel.idleThread c then none
    else some (m.kernel.runPt c)
  states : ∀ t ∈ m.live, StateShown m.kernel.toShared r t
  level : ∀ t ∈ m.live, r.level t = m.kernel.priority t
  tick : ∀ t ∈ r.asleep, r.tick t = m.kernel.resumeTick t

def Reads (layout : Layout Sem) (m : Machine Sem) (r : Roster Nat Sem) : Prop :=
  ∃ q, Rep layout.slots m.kernel.toShared q ∧ (∀ c, m.kernel.runPt c = assigned m.kernel q c) ∧
    Mirrors m.kernel.toShared q r

omit [DecidableEq Sem] in
theorem Inv.runPt_assigned (inv : Inv layout m q) (c : Core) :
    m.kernel.runPt c = assigned m.kernel q c := by
  rcases inv.current c with ⟨off, idle_off, free⟩ | ⟨_, _, same⟩
  · rw [assigned, if_pos free, off, idle_off]
  · exact same

omit [DecidableEq Sem] in
theorem Inv.reads (inv : Inv layout m q) (mirrors : Mirrors m.kernel.toShared q r) :
    Reads layout m r :=
  ⟨q, inv.base.rep, inv.runPt_assigned, mirrors⟩

omit [DecidableEq Sem] in
/-- A core is given the same thread by both queues: an idle thread is on no list. -/
theorem Inv.running_unique (inv : Inv layout m q) (rep : Rep layout.slots m.kernel.toShared q')
    (assigns : ∀ c, m.kernel.runPt c = assigned m.kernel q' c) (c : Core) :
    q.running c = q'.running c := by
  have same := (inv.runPt_assigned c).symm.trans (assigns c)
  have unlisted : ∀ t, m.kernel.idleThread c = t → t ≠ null →
      q.place t = .gone ∧ q'.place t = .gone := by
    rintro _ rfl there
    have gone := (inv.base.idle c there).gone
    exact ⟨gone, (inv.base.rep.place_unique rep _).symm.trans gone⟩
  by_cases free : q.running c = null
  · by_cases free' : q'.running c = null
    · rw [free, free']
    · rw [assigned, if_pos free, assigned, if_neg free'] at same
      obtain ⟨p, here⟩ := rep.listed.current c free'
      rw [(unlisted _ same free').2] at here
      cases here
  · by_cases free' : q'.running c = null
    · rw [assigned, if_neg free, assigned, if_pos free'] at same
      obtain ⟨p, here⟩ := inv.base.rep.listed.current c free
      rw [(unlisted _ same.symm free).1] at here
      cases here
    · rwa [assigned, if_neg free, assigned, if_neg free'] at same

omit [DecidableEq Sem] in
theorem Inv.mirrors (inv : Inv layout m q) (reads : Reads layout m r) :
    Mirrors m.kernel.toShared q r := by
  obtain ⟨other, rep, assigns, mirrors⟩ := reads
  have members := inv.base.rep.members_unique rep
  constructor
  · intro p
    rw [members (.ready p) (by simp)]
    exact mirrors.ready p
  · rw [members .asleep (by simp)]
    exact mirrors.asleep
  · intro s
    rw [members (.waiting s) (by simp)]
    exact mirrors.waiting s
  · intro c
    rw [inv.running_unique rep assigns c]
    exact mirrors.running c
  · intro t live
    rw [inv.base.rep.place_unique rep] at live
    exact mirrors.level t live
  · intro t sleeps
    rw [inv.base.rep.place_unique rep] at sleeps
    exact mirrors.tick t sleeps

omit [DecidableEq Sem] in
theorem state_shown {k : Shared Sem} (rep : Rep layout.slots k q) (mirrors : Mirrors k q r) {t : Nat}
    (live : q.place t ≠ .gone) : StateShown k r t := by
  have ready (p : Nat) : t ∈ r.ready p ↔ q.place t = .ready p := by
    rw [mirrors.ready]
    exact rep.ready_members
  have asleep : t ∈ r.asleep ↔ q.place t = .asleep := by
    rw [mirrors.asleep]
    exact rep.listed.members t _ (by simp)
  have waiting (s : Sem) : t ∈ r.waiting s ↔ q.place t = .waiting s := by
    rw [mirrors.waiting]
    exact rep.listed.members t _ (by simp)
  have runs : k.state t = .running ↔ ∃ c, r.running c = some t := by
    rw [rep.runs_iff live]
    refine exists_congr fun c => ?_
    rw [mirrors.running, present_eq_some (rep.listed.ne_null t live)]
  have nobody : (∀ c, r.running c ≠ some t) ↔ k.state t ≠ .running := by
    rw [ne_eq, runs, not_exists]
  have fits := rep.stated t
  refine ⟨runs, ?_, ?_, ?_⟩ <;> simp only [ready, asleep, waiting, nobody] <;>
    cases here : q.place t with
  | gone => exact absurd here live
  | ready p =>
      rw [here] at fits
      rcases fits.2.2.1 with state | state <;> simp [state]
  | asleep =>
      rw [here] at fits
      simp [fits.2]
  | waiting s =>
      rw [here] at fits
      simp [fits.2]

omit [DecidableEq Sem] in
theorem Inv.shows (inv : Inv layout m q) (mirrors : Mirrors m.kernel.toShared q r) : Shows m r := by
  have rep := inv.base.rep
  constructor
  · intro p
    rw [mirrors.ready]
    exact ⟨rep.joined (.ready p), rep.listed.distinct _⟩
  · rw [mirrors.asleep]
    exact rep.joined .asleep
  · intro s
    rw [mirrors.waiting]
    exact rep.joined (.waiting s)
  · intro c
    rw [mirrors.running, inv.runPt_assigned c, assigned]
    by_cases free : q.running c = null
    · simp [free]
    · obtain ⟨p, here⟩ := rep.listed.current c free
      have idle : q.running c ≠ m.kernel.idleThread c := by
        intro same
        have there : m.kernel.idleThread c ≠ null := same ▸ free
        rw [same, (inv.base.idle c there).gone] at here
        cases here
      simp [free, idle, present]
  · intro t live
    exact state_shown rep mirrors ((inv.base.live t).mp live)
  · intro t live
    exact mirrors.level t ((inv.base.live t).mp live)
  · intro t member
    rw [mirrors.asleep] at member
    exact mirrors.tick t ((rep.listed.members t _ (by simp)).mp member)

/-! The calls, one by one. -/

theorem suspend_reads {c : Core} {times : Readings} (suspended : suspend m c times = some m')
    (rep : Rep layout.slots m.kernel.toShared q) (own : Own m.kernel q c)
    (started : m.kernel.runPt c ≠ null) (level : m.kernel.activePriorityCount idlePriority ≠ 0)
    (others : ∀ d, d ≠ c → m.kernel.runPt d = assigned m.kernel q d)
    (mirrors : Mirrors m.kernel.toShared q r) : Reads layout m' (r.dispatch c) := by
  obtain ⟨k, _, answer, scheduled, _⟩ := schedule_spec times rep own started level
  have pending : k.pendSv c = true := by rw [scheduled.pending, Function.update_self]
  obtain rfl := Option.some.inj ((suspend_eq times answer pending).symm.trans suspended)
  obtain ⟨q', rep', mirrors', kept, next⟩ := schedule_mirrors rep own started level mirrors answer
  refine ⟨q', rep', fun d => ?_, mirrors'⟩
  simp only [pendSvHandler, assigned, scheduled.tasks.idleThread, scheduled.tasks.runPt]
  by_cases this : d = c
  · subst this
    rw [Function.update_self, next]
  · rw [Function.update_of_ne this, kept d this]
    exact others d this

theorem schedule_reads (inv : Inv layout m q) (mirrors : Mirrors m.kernel.toShared q r) {c : Core}
    (started : m.kernel.runPt c ≠ null) {times : Readings}
    (performed : perform layout m (.schedule c times) = some m') :
    Reads layout m' (r.dispatch c) := by
  have level : m.kernel.activePriorityCount idlePriority ≠ 0 := by
    rw [inv.base.idleLevel c (inv.started started).1]
    exact Nat.one_ne_zero
  exact suspend_reads performed inv.base.rep (inv.own started) started level
    (fun d _ => inv.runPt_assigned d) mirrors

section Park
variable {c : Core} {spot : Place Sem} {key : Nat → Nat} {shared : Shared Sem}

theorem park_reads (inv : Inv layout m q) (busy : NonIdle m.kernel c)
    (chained : spot = .asleep ∨ ∃ s, spot = .waiting s)
    (moved : Moved layout.slots m.kernel.toShared shared q
      (q.park (m.kernel.runPt c) (m.kernel.priority (m.kernel.runPt c)) spot key))
    (mirrors : Mirrors shared
      (q.park (m.kernel.runPt c) (m.kernel.priority (m.kernel.runPt c)) spot key) r)
    {alarm : Nat} {times : Readings}
    (suspended : suspend { m with kernel := { m.kernel with toShared := shared, alarm0 := alarm } } c
      times = some m') : Reads layout m' (r.dispatch c) := by
  obtain ⟨given, _, here⟩ := inv.runs busy
  have level : shared.activePriorityCount idlePriority ≠ 0 := by
    rw [moved.idleLevel, inv.base.idleLevel c (inv.started busy.1).1]
    exact Nat.one_ne_zero
  have parked : shared.state (m.kernel.runPt c) ≠ .running := by
    have fits := moved.rep.stated (m.kernel.runPt c)
    have place : (q.park (m.kernel.runPt c) (m.kernel.priority (m.kernel.runPt c)) spot key).place
        (m.kernel.runPt c) = spot := Function.update_self _ _ _
    rw [place] at fits
    rcases chained with rfl | ⟨s, rfl⟩
    · simp [fits.2]
    · simp [fits.2]
  have own : Own { m.kernel with toShared := shared, alarm0 := alarm }
      (q.park (m.kernel.runPt c) (m.kernel.priority (m.kernel.runPt c)) spot key) c := by
    simp only [Own, if_neg parked]
    exact if_pos given
  refine suspend_reads suspended moved.rep own busy.1 level (fun d other => ?_) mirrors
  have kept : (q.park (m.kernel.runPt c) (m.kernel.priority (m.kernel.runPt c)) spot key).running d =
      q.running d := by
    apply if_neg
    intro same
    exact other (inv.base.rep.listed.apart c d (by rw [given]; exact busy.1)
      (given.trans same.symm)).symm
  simp only [assigned, kept]
  exact inv.runPt_assigned d

end Park

omit [DecidableEq Sem] in
theorem running_of_busy (inv : Inv layout m q) (mirrors : Mirrors m.kernel.toShared q r) {c : Core}
    (busy : NonIdle m.kernel c) : r.running c = some (m.kernel.runPt c) := by
  rw [mirrors.running, (inv.runs busy).1, present_of_ne busy.1]

theorem schedBlock_reads (inv : Inv layout m q) (mirrors : Mirrors m.kernel.toShared q r) {c : Core}
    (busy : NonIdle m.kernel c) {s : Sem} {times : Readings}
    (performed : perform layout m (.schedBlock c s times) = some m') :
    Reads layout m' (r.apply (.block c s)) := by
  obtain ⟨given, runs, here⟩ := inv.runs busy
  obtain ⟨shared, answer, ticks, moved⟩ := schedBlock_moved inv.base.rep here runs s
  simp only [perform, answer, Option.bind_eq_bind, Option.bind_some] at performed
  simp only [Roster.apply, running_of_busy inv mirrors busy, Option.elim_some]
  have levels : ∀ x ∈ m.kernel.runPt c :: q.members (.waiting s), m.kernel.priority x = r.level x := by
    intro x member
    rcases List.mem_cons.mp member with rfl | listed
    · exact (mirrors.level _ (by simp [here])).symm
    · have there := (inv.base.rep.listed.members x _ (by simp)).mp listed
      exact (mirrors.level x (by simp [there])).symm
  refine park_reads inv busy (.inr ⟨s, rfl⟩) moved ?_ performed
  refine mirrors_park mirrors inv.base.rep given busy.1 here moved.priority ⟨rfl, rfl, rfl⟩
    (.inr ⟨s, rfl⟩) ?_ ?_ ?_
  · rw [if_neg (by simp)]
    rfl
  · intro other
    by_cases same : s = other
    · subst same
      rw [if_pos rfl, mirrors.waiting]
      refine (Function.update_self _ _ _).trans ?_
      exact (insertByKey_congr (levels _ List.mem_cons_self) fun x member =>
        levels x (List.mem_cons_of_mem _ member)).symm
    · rw [if_neg (by simpa using same)]
      exact Function.update_of_ne (Ne.symm same) _ _
  · intro x sleeps
    rw [ticks]
    apply mirrors.tick
    exact sleeps.resolve_right fun wrong => by cases wrong.2

theorem sleep_reads (inv : Inv layout m q) (mirrors : Mirrors m.kernel.toShared q r) {c : Core}
    (busy : NonIdle m.kernel c) {now sleepTime : Nat} {times : Readings}
    (performed : perform layout m (.sleep c now sleepTime times) = some m') :
    Reads layout m'
      (r.apply (if sleepTime = 0 then .stay else .sleep c (tickAfter now sleepTime))) := by
  by_cases nothing : sleepTime = 0
  · simp only [perform, if_pos nothing, Option.some.injEq] at performed
    subst performed
    rw [if_pos nothing]
    exact inv.reads mirrors
  · obtain ⟨given, runs, here⟩ := inv.runs busy
    obtain ⟨shared, alarm, answer, ticks, moved⟩ :=
      sleep_moved inv.base.rep here runs now sleepTime
    simp only [perform, if_neg nothing, answer, Option.bind_eq_bind, Option.bind_some] at performed
    simp only [if_neg nothing, Roster.apply, running_of_busy inv mirrors busy, Option.elim_some]
    have keys : ∀ x, q.place x = .asleep ∨ x = m.kernel.runPt c →
        Function.update r.tick (m.kernel.runPt c) (tickAfter now sleepTime) x =
          shared.resumeTick x := by
      intro x listed
      rw [ticks]
      by_cases this : x = m.kernel.runPt c
      · subst this
        simp only [Function.update_self]
      · rw [Function.update_of_ne this, Function.update_of_ne this]
        exact mirrors.tick x (listed.resolve_right this)
    refine park_reads inv busy (.inl rfl) moved ?_ performed
    refine mirrors_park mirrors inv.base.rep given busy.1 here moved.priority ⟨rfl, rfl, rfl⟩
      (.inl rfl) ?_ ?_ ?_
    · rw [if_pos rfl, mirrors.asleep]
      apply insertByKey_congr
      · exact keys _ (.inr rfl)
      · exact fun x member => keys x (.inl ((inv.base.rep.listed.members x _ (by simp)).mp member))
    · intro s
      rw [if_neg (by simp)]
      rfl
    · intro x sleeps
      exact keys x (sleeps.imp_right And.left)

theorem wake_reads (inv : Inv layout m q) {t : Nat} {rest : List Nat} {spot : Place Sem}
    (here : q.place t = spot) (linked : spot ≠ .gone) (away : ∀ p, spot ≠ .ready p)
    {k : Kernel Sem} (same : k.runPt = m.kernel.runPt ∧ k.idleThread = m.kernel.idleThread)
    (moved : Moved layout.slots m.kernel.toShared k.toShared q
      (q.wake t (m.kernel.priority t) rest))
    (ticks : k.resumeTick = m.kernel.resumeTick)
    (mirrors : Mirrors m.kernel.toShared (q.wake t (m.kernel.priority t) rest) r) :
    Reads layout { m with kernel := k } r := by
  refine ⟨_, moved.rep, fun c => ?_, mirrors.kept (fun _ _ => congrFun moved.priority _)
    fun _ _ => congrFun ticks _⟩
  simp only [assigned, wake_running inv.base.rep here linked away, same.1, same.2]
  exact inv.runPt_assigned c

theorem schedUnblock_reads (inv : Inv layout m q) (mirrors : Mirrors m.kernel.toShared q r)
    {c : Core} {s : Sem} (some_waits : m.kernel.bthreadsRoot s ≠ null)
    (performed : perform layout m (.schedUnblock c s) = some m') :
    Reads layout m' (r.apply (.wake s)) := by
  obtain ⟨t, rest, nodes, root, here⟩ := waiters_cons inv.base.rep some_waits
  obtain ⟨answer, moved⟩ := schedUnblock_moved inv.base.rep c nodes
  simp only [perform, answer, Option.bind_eq_bind, Option.bind_some, Option.some.injEq] at performed
  subst performed
  refine wake_reads inv here (by simp) (by simp) ⟨rfl, rfl⟩ moved ?_
    (mirrors_wake mirrors inv.base.rep nodes)
  exact enqueueThread_resumeTick _ _

theorem unsleep_reads (inv : Inv layout m q) (mirrors : Mirrors m.kernel.toShared q r)
    {first second : Nat} (performed : perform layout m (.unsleep first second) = some m') :
    Reads layout m' (r.apply .unsleep) := by
  simp only [perform, Option.some.injEq] at performed
  subst performed
  rcases unsleep_moved inv.base.rep first second with ⟨nodes, unchanged⟩ | ⟨t, rest, nodes, here,
    shared, moved⟩
  · have nobody : r.apply .unsleep = r := by
      simp only [Roster.apply, Roster.unsleep, mirrors.asleep.trans nodes]
    rw [unchanged, nobody]
    exact inv.reads mirrors
  · obtain ⟨runPt, _, idleThread, _, _⟩ := unsleep_local m.kernel first second
    refine wake_reads inv here (by simp) (by simp) ⟨runPt, idleThread⟩ moved ?_
      (mirrors_unsleep mirrors inv.base.rep nodes)
    rw [shared]
    exact enqueueThread_resumeTick _ _

/-! Calls that allocate. -/

theorem addThread_reads (inv : Inv layout m q) (mirrors : Mirrors m.kernel.toShared q r)
    {stackSize priority : Nat}
    (spared : priority < priorityLvlCnt → HeapSpared layout m stackSize)
    (performed : perform layout m (.addThread stackSize priority) = some m') :
    ∃ move, Answers layout.heapLock (.addThread stackSize priority) move ∧
      Reads layout m' (r.apply move) := by
  have kept := inv.reads mirrors
  by_cases large : priorityLvlCnt ≤ priority
  · simp only [perform, addThread, if_pos large, Option.some.injEq] at performed
    subst performed
    exact ⟨.stay, .inr rfl, kept⟩
  · have below := Nat.lt_of_not_le large
    obtain ⟨first, newtcb, answer, _, _, rest⟩ := allocate_pair inv.base.tracked (spared below)
    simp only [perform, addThread, if_neg large, answer, Option.bind_eq_bind, Option.bind_some]
      at performed
    by_cases failed : newtcb = null
    · simp only [if_pos failed, Option.some.injEq] at performed
      subst performed
      exact ⟨.stay, .inr rfl, kept⟩
    · obtain ⟨_, second, stack, again, _, _, new⟩ := rest failed
      simp only [if_neg failed, again, Option.bind_some] at performed
      by_cases stackless : stack = null
      · simp only [if_pos stackless] at performed
        obtain ⟨heap, _, rfl⟩ := Option.map_eq_some_iff.mp performed
        exact ⟨.stay, .inr rfl, kept⟩
      · simp only [if_neg stackless, Option.some.injEq] at performed
        subst performed
        have blocks := new stackless
        obtain ⟨gone, _, _⟩ := blocks.unused inv.base
        refine ⟨.spawn newtcb priority, .inl ⟨below, newtcb, rfl⟩, _,
          addThread_enters inv.base.rep gone blocks.slot below stack stackSize,
          inv.runPt_assigned, mirrors_enter mirrors gone ?_ ?_⟩
        · exact enqueueThread_priority _ _
        · exact enqueueThread_resumeTick _ _

theorem initScheduler_reads (inv : Inv layout m q) (mirrors : Mirrors m.kernel.toShared q r)
    {c : Core} (off : m.kernel.runPt c = null) (spared : HeapSpared layout m 128)
    (performed : perform layout m (.initScheduler c) = some m') :
    ∃ move, Answers layout.heapLock (.initScheduler c) move ∧ Reads layout m' (r.apply move) := by
  have kept := inv.reads mirrors
  obtain ⟨first, idleTcb, answer, _, _, rest⟩ := allocate_pair inv.base.tracked spared
  simp only [perform, initScheduler, answer, Option.bind_eq_bind, Option.bind_some] at performed
  by_cases failed : idleTcb = null
  · simp only [if_pos failed, Option.some.injEq] at performed
    subst performed
    exact ⟨.stay, .inr rfl, kept⟩
  · obtain ⟨_, second, stack, again, _, _, new⟩ := rest failed
    simp only [if_neg failed, again, Option.bind_some] at performed
    by_cases stackless : stack = null
    · simp only [if_pos stackless, Option.some.injEq] at performed
      subst performed
      exact ⟨.stay, .inr rfl, kept⟩
    · simp only [if_neg stackless] at performed
      obtain ⟨k, launched, rfl⟩ := Option.map_eq_some_iff.mp performed
      obtain ⟨gone, _, _⟩ := (new stackless).unused inv.base
      obtain ⟨idle_off, free⟩ : m.kernel.idleThread c = null ∧ q.running c = null := by
        rcases inv.current c with ⟨_, idle_off, free⟩ | ⟨on, _⟩
        · exact ⟨idle_off, free⟩
        · exact absurd off on
      have level : (setupIdle m.kernel c idleTcb stack).activePriorityCount idlePriority ≠ 0 := by
        simp [setupIdle]
      have set_up : Mirrors (setupIdle m.kernel c idleTcb stack).toShared q r := by
        refine mirrors.kept (fun t live => Function.update_of_ne ?_ _ _) fun _ _ => rfl
        rintro rfl
        exact live gone
      obtain ⟨q', rep', mirrors', others, current⟩ := firstDispatch_mirrors
        (setupIdle_rep inv.base.rep c gone stack) free (setupIdle_rests inv.base idle_off gone) level
        set_up launched
      refine ⟨.dispatch c, .inl rfl, q', rep', fun d => ?_, mirrors'⟩
      obtain ⟨runs, idles⟩ := firstDispatch_local launched
      by_cases this : d = c
      · subst this
        simp only [assigned, idles]
        exact current
      · simp only [assigned, others d this, idles, setupIdle_others this, runs d this]
        exact inv.runPt_assigned d

/-! `kill` -/

structure Freed (layout : Layout Sem) (m m' : Machine Sem) (q q' : Queues Sem) (ptr : Nat)
    (r' : Roster Nat Sem) : Prop where
  rep : Rep layout.slots m'.kernel.toShared q'
  mirrors : Mirrors m'.kernel.toShared q' r'
  tracked : Heap.Tracked layout.place m'.heap
  blocks : m'.heap.live = m.heap.live.filter fun block => block.ptr ≠ ptr
  runPt : m'.kernel.runPt = m.kernel.runPt
  idleThread : m'.kernel.idleThread = m.kernel.idleThread
  priority : m'.kernel.priority = m.kernel.priority
  running : q'.running = q.running
  unlinked : ∀ x, q.place x = .gone → q'.place x = .gone ∧ m'.kernel.state x = m.kernel.state x
  idleLevel : m'.kernel.activePriorityCount idlePriority = m.kernel.activePriorityCount idlePriority
  waiters : q'.members (.waiting layout.heapLock) = (q.members (.waiting layout.heapLock)).tail

theorem used_of_block {place : Heap.Placement} {heap : Heap.State}
    (tracked : Heap.Tracked place heap) {block : Heap.Block} (member : block ∈ heap.live) :
    heap.tree 0 ≠ null := by
  obtain ⟨i, leaf, _⟩ := tracked.live block member
  intro empty
  by_cases top : i = 0
  · exact leaf.1 (top ▸ empty)
  · exact leaf.1 (tracked.wf.shaped.below_root_null (by rw [empty]; exact Heap.branch_not_null.symm)
      i top)

theorem free_freed (rep : Rep layout.slots m.kernel.toShared q)
    (mirrors : Mirrors m.kernel.toShared q r) (tracked : Heap.Tracked layout.place m.heap)
    (used : ∃ block, block ∈ m.heap.live) {c : Core} {ptr : Nat} {times : Readings}
    (quiet : ∀ w, (q.members (.waiting layout.heapLock)).head? = some w →
      m.kernel.priority w < m.kernel.priority (m.kernel.runPt c))
    (freed : free layout m c ptr times = some m') :
    ∃ q', Freed layout m m' q q' ptr (r.wake layout.heapLock) := by
  obtain ⟨block, member⟩ := used
  obtain ⟨heap, stepped, after, blocks⟩ := release_spec tracked ptr
  rw [free, if_neg (used_of_block tracked member), stepped, Option.bind_eq_bind,
    Option.bind_some] at freed
  by_cases nobody : m.kernel.bthreadsRoot layout.heapLock = null
  · rw [bSignal, if_pos nobody, Option.some.injEq] at freed
    subst freed
    have chain : Chain null m.kernel.nextTcb (m.kernel.bthreadsRoot layout.heapLock)
        (q.members (.waiting layout.heapLock)) := rep.joined (.waiting layout.heapLock)
    have empty := chain.null_iff.mp nobody
    have unchanged : r.wake layout.heapLock = r := by
      simp only [Roster.wake, (mirrors.waiting _).trans empty]
    rw [unchanged]
    exact ⟨q, rep, mirrors, after, blocks, rfl, rfl, rfl, rfl, fun _ gone => ⟨gone, rfl⟩, rfl,
      by rw [empty]; rfl⟩
  · obtain ⟨w, rest, nodes, _, here⟩ := waiters_cons rep nobody
    obtain ⟨answer, moved⟩ := schedUnblock_moved rep c nodes
    have calm := Nat.not_le.mpr (quiet w (by simp [nodes]))
    simp only [bSignal, if_neg nobody, answer, Option.bind_eq_bind, Option.bind_some, calm,
      decide_false, Bool.false_eq_true, if_false, Option.some.injEq] at freed
    subst freed
    refine ⟨_, moved.rep, ?_, after, blocks, rfl, rfl, moved.priority,
      wake_running rep here (by simp) (by simp), fun x gone =>
        ⟨(moved.alive x).mpr gone, moved.unlinked x gone⟩, moved.idleLevel, ?_⟩
    · exact (mirrors_wake mirrors rep nodes).kept (fun _ _ => congrFun moved.priority _)
        fun _ _ => congrFun (enqueueThread_resumeTick _ _) _
    · rw [wake_members here (by simp) (.waiting layout.heapLock) (by simp), if_pos rfl, nodes]
      rfl

theorem retire_mirrors (inv : Inv layout m q) (mirrors : Mirrors m.kernel.toShared q r) {c : Core}
    (busy : NonIdle m.kernel c) :
    Rep layout.slots (retire m (m.kernel.runPt c)).kernel.toShared
        (q.drop (m.kernel.runPt c) (m.kernel.priority (m.kernel.runPt c))) ∧
      Mirrors (retire m (m.kernel.runPt c)).kernel.toShared
        (q.drop (m.kernel.runPt c) (m.kernel.priority (m.kernel.runPt c)))
        (r.leave c (m.kernel.runPt c)) := by
  obtain ⟨given, runs, here⟩ := inv.runs busy
  have untouched := dequeueThread_untouched m.kernel.toShared (m.kernel.runPt c)
  refine ⟨drop_moved inv.base.rep here runs .dead, ?_⟩
  exact (mirrors_leave mirrors inv.base.rep given busy.1 here).kept
    (fun _ _ => congrFun untouched.priority _) fun _ _ => congrFun untouched.resumeTick _

omit [DecidableEq Sem] in
theorem own_blocks (inv : Inv layout m q) {c : Core} (busy : NonIdle m.kernel c) :
    (∃ block, block ∈ m.heap.live) ∧
      ∃ block, block ∈ m.heap.live.filter fun block =>
        block.ptr ≠ m.kernel.stack (m.kernel.runPt c) := by
  have holds : Holder m.kernel q (m.kernel.runPt c) := .inl (by simp [(inv.runs busy).2.2])
  obtain ⟨tcb, member, same⟩ := inv.base.owned.held _ .tcb holds
  refine ⟨⟨tcb, member⟩, tcb, List.mem_filter.mpr ⟨member, ?_⟩⟩
  have apart : tcb.ptr ≠ m.kernel.stack (m.kernel.runPt c) := by
    intro equal
    have both := inv.base.owned.distinct _ _ .tcb .stack holds holds (same.symm.trans equal)
    cases both.2
  simpa using apart

theorem kill_reads (inv : Inv layout m q) (mirrors : Mirrors m.kernel.toShared q r) {c : Core}
    (busy : NonIdle m.kernel c) (quiet : QuietKill layout m.kernel c)
    {freeStack freeTcb last : Readings}
    (performed : perform layout m (.kill c freeStack freeTcb last) = some m') :
    Reads layout m' (r.apply (.retire c layout.heapLock)) := by
  obtain ⟨given, _, here⟩ := inv.runs busy
  obtain ⟨first_urgent, second_urgent⟩ := quiet.waiters inv.base.rep
  obtain ⟨block_left, tcb_left⟩ := own_blocks inv busy
  obtain ⟨rep, dropped⟩ := retire_mirrors inv mirrors busy
  have untouched := dequeueThread_untouched m.kernel.toShared (m.kernel.runPt c)
  have priority : (retire m (m.kernel.runPt c)).kernel.priority = m.kernel.priority :=
    untouched.priority
  have waiters : (q.drop (m.kernel.runPt c) (m.kernel.priority (m.kernel.runPt c))).members
      (.waiting layout.heapLock) = q.members (.waiting layout.heapLock) :=
    drop_members here _ (by simp)
  -- the stack first, then the TCB; each `free` may wake a waiter of `heap_lock`
  obtain ⟨m₁, freed, performed⟩ := Option.bind_eq_some_iff.mp performed
  obtain ⟨m₂, freed_tcb, performed⟩ := Option.bind_eq_some_iff.mp performed
  have stack : (retire m (m.kernel.runPt c)).kernel.stack = m.kernel.stack := rfl
  obtain ⟨q₁, one⟩ := free_freed rep dropped inv.base.tracked block_left (fun w first => by
    rw [waiters] at first
    rw [priority]
    exact first_urgent w first) freed
  obtain ⟨q₂, two⟩ := free_freed one.rep one.mirrors one.tracked
    (by rw [one.blocks, stack]; exact tcb_left) (fun w first => by
      rw [one.waiters, waiters] at first
      rw [one.priority, one.runPt, priority]
      exact second_urgent w first) freed_tcb
  have suspended : suspend { m₂ with kernel := { m₂.kernel with
      runPt := Function.update m₂.kernel.runPt c layout.blackHole } } c last = some m' := by
    obtain ⟨selected, answer, switched⟩ := Option.bind_eq_some_iff.mp performed
    rw [suspend, answer]
    exact switched
  have running : q₂.running = fun d => if q.running d = m.kernel.runPt c then null else q.running d :=
    two.running.trans one.running
  have other : layout.blackHole ≠ m.kernel.runPt c := by
    intro equal
    have away := inv.base.blackHole_gone
    rw [equal, here] at away
    cases away
  have dead : m₂.kernel.state layout.blackHole = .dead := by
    obtain ⟨gone, same⟩ := one.unlinked layout.blackHole
      ((Function.update_of_ne other _ _).trans inv.base.blackHole_gone)
    rw [(two.unlinked _ gone).2, same]
    simp only [retire, Function.update_of_ne other, untouched.state]
    exact inv.base.blackHole
  have levels : m₂.kernel.activePriorityCount idlePriority ≠ 0 := by
    rw [two.idleLevel, one.idleLevel]
    simp only [retire, untouched.active]
    rw [inv.base.idleLevel c (inv.started busy.1).1]
    exact Nat.one_ne_zero
  simp only [Roster.apply, running_of_busy inv mirrors busy, Option.elim_some]
  refine suspend_reads suspended two.rep ?_ ?_ levels (fun d other => ?_) two.mirrors
  · simp only [Own, Function.update_self, dead, running, given]
    simp
  · simpa using layout.present
  · have apart : q.running d ≠ m.kernel.runPt c := by
      intro same
      exact other (inv.base.rep.listed.apart c d (by rw [given]; exact busy.1)
        (given.trans same.symm)).symm
    simp only [Function.update_of_ne other, assigned, running, if_neg apart, two.runPt, one.runPt,
      two.idleThread, one.idleThread]
    exact inv.runPt_assigned d

/-! Runs. -/

theorem call_reads (inv : Inv layout m q) (mirrors : Mirrors m.kernel.toShared q r)
    {call : Call Sem} (enabled : Enabled layout m call) (guarded : Guard layout m call)
    (performed : perform layout m call = some m') :
    ∃ move, Answers layout.heapLock call move ∧ Reads layout m' (r.apply move) := by
  cases call with
  | initScheduler c => exact initScheduler_reads inv mirrors enabled.1 guarded performed
  | addThread stackSize priority => exact addThread_reads inv mirrors guarded performed
  | schedule c times => exact ⟨_, rfl, schedule_reads inv mirrors enabled performed⟩
  | schedBlock c s times => exact ⟨_, rfl, schedBlock_reads inv mirrors enabled performed⟩
  | schedUnblock c s => exact ⟨_, rfl, schedUnblock_reads inv mirrors enabled.2 performed⟩
  | sleep c now sleepTime times => exact ⟨_, rfl, sleep_reads inv mirrors enabled performed⟩
  | unsleep first second => exact ⟨_, rfl, unsleep_reads inv mirrors performed⟩
  | kill c freeStack freeTcb last => exact ⟨_, rfl, kill_reads inv mirrors enabled guarded performed⟩

theorem step_follows (inv : Inv layout m q) (mirrors : Mirrors m.kernel.toShared q r)
    {call : Call Sem} (guarded : Guard layout m call) (stepped : step layout m call = some m') :
    ∃ move q', Answers layout.heapLock call move ∧ Inv layout m' q' ∧
      Mirrors m'.kernel.toShared q' (r.apply move) := by
  obtain ⟨_, enabled, performed⟩ := step_enabled stepped
  obtain ⟨q', inv', _⟩ := inv_step inv guarded stepped
  obtain ⟨move, answers, reads⟩ := call_reads inv mirrors enabled guarded performed
  exact ⟨move, q', answers, inv', inv'.mirrors reads⟩

theorem run_follows (calls : List (Call Sem)) (inv : Inv layout m q)
    (mirrors : Mirrors m.kernel.toShared q r)
    (allowed : Allowed (step layout) (Guard layout) m calls)
    (executed : exec (step layout) m calls = some m') :
    ∃ moves q', List.Forall₂ (Answers layout.heapLock) calls moves ∧ Inv layout m' q' ∧
      Mirrors m'.kernel.toShared q' (moves.foldl Roster.apply r) := by
  induction calls generalizing m q r with
  | nil =>
      cases executed
      exact ⟨[], q, .nil, inv, mirrors⟩
  | cons call rest ih =>
      cases stepped : step layout m call with
      | none => simp only [exec, stepped, reduceCtorEq] at executed
      | some next =>
          simp only [exec, stepped] at executed
          simp only [Allowed, stepped] at allowed
          obtain ⟨move, q₁, answers, inv₁, mirrors₁⟩ := step_follows inv mirrors allowed.1 stepped
          obtain ⟨moves, q', answers', inv', mirrors'⟩ := ih inv₁ mirrors₁ allowed.2 executed
          exact ⟨move :: moves, q', .cons answers answers', inv', mirrors'⟩

omit [DecidableEq Sem] in
theorem mirrors_empty (k : Shared Sem) : Mirrors k noQueues (Roster.empty : Roster Nat Sem) where
  ready _ := rfl
  asleep := rfl
  waiting _ := rfl
  running _ := rfl
  level _ live := absurd rfl live
  tick _ sleeps := by cases sleeps

/-- Every run of guarded calls is a run of the roster, call by call: after it the
links in memory are the rings, the sleep queue and the waiting lists of the roster,
in its order, and the cores run what it says. -/
theorem refines_roster {before : Machine Sem} (on : PowerOn layout before) (calls : List (Call Sem))
    (allowed : Allowed (step layout) (Guard layout) before calls)
    (executed : exec (step layout) before calls = some m') :
    ∃ moves, List.Forall₂ (Answers layout.heapLock) calls moves ∧
      Shows m' (moves.foldl Roster.apply Roster.empty) := by
  obtain ⟨moves, q', answers, inv, mirrors⟩ :=
    run_follows calls (powerOn_inv on) (mirrors_empty _) allowed executed
  exact ⟨moves, answers, inv.shows mirrors⟩

theorem refines_roster_board :
    ∃ m ∈ exec (step board) reset shortRun, ∃ moves,
      List.Forall₂ (Answers board.heapLock) shortRun moves ∧
        Shows m (moves.foldl Roster.apply Roster.empty) := by
  obtain ⟨m, executed, _⟩ : ∃ m ∈ exec (step board) reset shortRun, m.live.card = 1 := by
    decide +kernel
  have allowed : Allowed (step board) (Guard board) reset shortRun := by decide +kernel
  exact ⟨m, executed, refines_roster reset_powerOn shortRun allowed executed⟩

end MulticoreRtos.Serialized
