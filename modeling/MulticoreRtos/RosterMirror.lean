import Mathlib.Data.List.Find
import MulticoreRtos.Roster
import MulticoreRtos.RoundRobin

/-!
The lists of the kernel against a roster. `Mirrors` is kept by every move of a
thread between lists, and a call of `schedule()` is a dispatch.
-/

namespace MulticoreRtos.Scheduler

open LinkedList
open Heap (null)

variable {Sem : Type} {slots : Slots} {k k' : Shared Sem} {q q' : Queues Sem} {r : Roster Nat Sem}

def present (t : Nat) : Option Nat := if t = null then none else some t

@[simp] theorem present_null : present null = none := rfl

theorem present_of_ne {t : Nat} (there : t ≠ null) : present t = some t := if_neg there

theorem present_eq_some {t x : Nat} (there : x ≠ null) : present t = some x ↔ t = x := by
  unfold present
  constructor
  · intro same
    split at same
    · cases same
    · exact Option.some.inj same
  · rintro rfl
    rw [if_neg there]

structure Mirrors (k : Shared Sem) (q : Queues Sem) (r : Roster Nat Sem) : Prop where
  ready : ∀ p, r.ready p = q.members (.ready p)
  asleep : r.asleep = q.members .asleep
  waiting : ∀ s, r.waiting s = q.members (.waiting s)
  running : ∀ c, r.running c = present (q.running c)
  level : ∀ t, q.place t ≠ .gone → r.level t = k.priority t
  tick : ∀ t, q.place t = .asleep → r.tick t = k.resumeTick t

theorem Chain.unique {next : Nat → Nat} {root : Nat} {first second : List Nat}
    (one : Chain null next root first) (other : Chain null next root second) : first = second := by
  induction first generalizing root second with
  | nil => exact (other.null_iff.mp one).symm
  | cons x rest ih =>
      cases second with
      | nil => exact absurd (one.1.symm.trans other) one.2.1
      | cons y more =>
          obtain rfl : x = y := one.1.symm.trans other.1
          rw [ih one.2.2 other.2.2]

theorem Rep.members_unique (rep : Rep slots k q) (other : Rep slots k q') (spot : Place Sem)
    (linked : spot ≠ .gone) : q.members spot = q'.members spot := by
  cases spot with
  | gone => exact absurd rfl linked
  | ready p =>
      exact Ring.unique (rep.joined (.ready p)) (other.joined (.ready p))
        (rep.listed.distinct _) (other.listed.distinct _)
  | asleep => exact Chain.unique (rep.joined .asleep) (other.joined .asleep)
  | waiting s => exact Chain.unique (rep.joined (.waiting s)) (other.joined (.waiting s))

theorem Rep.place_unique (rep : Rep slots k q) (other : Rep slots k q') (t : Nat) :
    q.place t = q'.place t := by
  have reading : ∀ spot : Place Sem, spot ≠ .gone → (q.place t = spot ↔ q'.place t = spot) := by
    intro spot linked
    rw [← rep.listed.members t spot linked, ← other.listed.members t spot linked,
      rep.members_unique other spot linked]
  by_cases gone : q.place t = .gone
  · rw [gone]
    by_contra there
    exact there (((reading _ (Ne.symm there)).mpr rfl).symm.trans gone).symm
  · exact ((reading _ gone).mp rfl).symm

/-! Threads between lists. -/
section Lists
variable [DecidableEq Sem] {t p : Nat} {rest : List Nat} {spot : Place Sem}

theorem insertByKey_congr {key other : Nat → Nat} {new : Nat} {nodes : List Nat}
    (here : key new = other new) (same : ∀ x ∈ nodes, key x = other x) :
    insertByKey key new nodes = insertByKey other new nodes := by
  unfold insertByKey
  induction nodes with
  | nil => rfl
  | cons x rest ih =>
      have later := ih fun y member => same y (List.mem_cons_of_mem x member)
      simp only [List.orderedInsert, here, same x List.mem_cons_self, later]

omit [DecidableEq Sem] in
theorem Mirrors.kept (mirrors : Mirrors k q r)
    (priority : ∀ t, q.place t ≠ .gone → k'.priority t = k.priority t)
    (ticks : ∀ t, q.place t = .asleep → k'.resumeTick t = k.resumeTick t) : Mirrors k' q r :=
  { mirrors with
    level := fun t live => (mirrors.level t live).trans (priority t live).symm
    tick := fun t sleeps => (mirrors.tick t sleeps).trans (ticks t sleeps).symm }

theorem mirrors_join (mirrors : Mirrors k q r) (rep : Rep slots k q) (here : q.place t = spot)
    (linked : spot ≠ .gone) (away : ∀ p, spot ≠ .ready p) {r' : Roster Nat Sem}
    (same : r'.level = r.level ∧ r'.tick = r.tick ∧ r'.ready = r.ready ∧ r'.running = r.running)
    (asleep : r'.asleep = if spot = .asleep then rest else r.asleep)
    (waiting : ∀ s, r'.waiting s = if spot = .waiting s then rest else r.waiting s) :
    Mirrors k (q.wake t (k.priority t) rest) (r'.join t) := by
  obtain ⟨levels, ticks, readies, runs⟩ := same
  have live : q.place t ≠ .gone := by rwa [here]
  have level : r'.level t = k.priority t := by rw [levels, mirrors.level t live]
  have alive : ∀ x, (q.wake t (k.priority t) rest).place x = .gone ↔ q.place x = .gone :=
    wake_alive here linked
  constructor
  · intro p
    rw [wake_ready here away]
    simp only [Roster.join, level, readies, Function.update_apply, mirrors.ready]
    split
    · next same => rw [same]
    · rfl
  · rw [wake_members here away .asleep (by simp)]
    simp only [Roster.join, asleep, mirrors.asleep, eq_comm]
  · intro s
    rw [wake_members here away (.waiting s) (by simp)]
    simp only [Roster.join, waiting, mirrors.waiting, eq_comm]
  · intro c
    rw [wake_running rep here linked away]
    simp only [Roster.join, runs, mirrors.running]
  · intro x there
    simp only [Roster.join, levels]
    exact mirrors.level x fun gone => there ((alive x).mpr gone)
  · intro x sleeps
    simp only [Roster.join, ticks]
    by_cases this : x = t
    · subst this
      simp [Queues.wake, Queues.enter] at sleeps
    · apply mirrors.tick
      simpa [Queues.wake, Queues.enter, Queues.leave, this] using sleeps

theorem mirrors_wake (mirrors : Mirrors k q r) (rep : Rep slots k q) {s : Sem}
    (nodes : q.members (.waiting s) = t :: rest) :
    Mirrors k (q.wake t (k.priority t) rest) (r.wake s) := by
  have here : q.place t = .waiting s := (rep.listed.members t _ (by simp)).mp (by simp [nodes])
  have listed : r.waiting s = t :: rest := (mirrors.waiting s).trans nodes
  simp only [Roster.wake, listed]
  apply mirrors_join mirrors rep here
  · simp
  · simp
  · exact ⟨rfl, rfl, rfl, rfl⟩
  · simp
  · intro other
    simp only [Function.update_apply, Place.waiting.injEq, eq_comm]

theorem mirrors_unsleep (mirrors : Mirrors k q r) (rep : Rep slots k q)
    (nodes : q.members .asleep = t :: rest) :
    Mirrors k (q.wake t (k.priority t) rest) r.unsleep := by
  have here : q.place t = .asleep := (rep.listed.members t _ (by simp)).mp (by simp [nodes])
  have listed : r.asleep = t :: rest := mirrors.asleep.trans nodes
  simp only [Roster.unsleep, listed]
  apply mirrors_join mirrors rep here
  · simp
  · simp
  · exact ⟨rfl, rfl, rfl, rfl⟩
  · simp
  · simp

theorem mirrors_enter (mirrors : Mirrors k q r) (gone : q.place t = .gone)
    (priority : k'.priority = Function.update k.priority t p)
    (ticks : k'.resumeTick = k.resumeTick) :
    Mirrors k' (q.enter t (.ready p) (t :: q.members (.ready p)))
      ({ r with level := Function.update r.level t p }.join t) := by
  constructor
  · intro level
    simp only [Roster.join, Queues.enter, Function.update_apply, Place.ready.injEq, mirrors.ready,
      if_pos]
  · simpa [Roster.join, Queues.enter] using mirrors.asleep
  · intro s
    simpa [Roster.join, Queues.enter] using mirrors.waiting s
  · exact mirrors.running
  · intro x there
    rw [priority]
    by_cases this : x = t
    · subst this
      simp [Roster.join]
    · simp only [Roster.join, Function.update_of_ne this]
      apply mirrors.level
      simpa [Queues.enter, this] using there
  · intro x sleeps
    rw [ticks]
    apply mirrors.tick
    by_cases this : x = t
    · subst this
      simp [Queues.enter] at sleeps
    · simpa [Queues.enter, this] using sleeps

theorem mirrors_leave (mirrors : Mirrors k q r) (rep : Rep slots k q) {c : Core}
    (given : q.running c = t) (there : t ≠ null) (here : q.place t = .ready (k.priority t)) :
    Mirrors k (q.drop t (k.priority t)) (r.leave c t) := by
  have level : r.level t = k.priority t := mirrors.level t (by simp [here])
  constructor
  · intro p
    simp only [Roster.leave, Queues.drop, Queues.leave, level, here, Function.update_apply,
      Place.ready.injEq, mirrors.ready]
  · exact mirrors.asleep.trans (drop_members here .asleep (by simp)).symm
  · intro s
    exact (mirrors.waiting s).trans (drop_members here (.waiting s) (by simp)).symm
  · intro d
    simp only [Roster.leave, Queues.drop, Queues.leave, Function.update_apply]
    by_cases own : d = c
    · subst own
      rw [if_pos rfl, if_pos given]
      rfl
    · rw [if_neg own, if_neg, mirrors.running]
      intro same
      exact own (rep.listed.apart d c (by rwa [same]) (same.trans given.symm))
  · intro x live
    apply mirrors.level
    intro gone
    by_cases this : x = t
    · subst this
      simp [here] at gone
    · simp [Queues.drop, Queues.leave, this, gone] at live
  · intro x sleeps
    apply mirrors.tick
    by_cases this : x = t
    · subst this
      simp [Queues.drop, Queues.leave] at sleeps
    · simpa [Queues.drop, Queues.leave, this] using sleeps

theorem mirrors_park (mirrors : Mirrors k q r) (rep : Rep slots k q) {c : Core}
    (given : q.running c = t) (there : t ≠ null) (here : q.place t = .ready (k.priority t))
    (priority : k'.priority = k.priority) {key : Nat → Nat} {r' : Roster Nat Sem}
    (left : r'.ready = (r.leave c t).ready ∧ r'.running = (r.leave c t).running ∧
      r'.level = r.level)
    (chained : spot = .asleep ∨ ∃ s, spot = .waiting s)
    (asleep : r'.asleep = if spot = .asleep then insertByKey key t r.asleep else r.asleep)
    (waiting : ∀ s, r'.waiting s =
      if spot = .waiting s then insertByKey key t (r.waiting s) else r.waiting s)
    (ticks : ∀ x, q.place x = .asleep ∨ (x = t ∧ spot = .asleep) → r'.tick x = k'.resumeTick x) :
    Mirrors k' (q.park t (k.priority t) spot key) r' := by
  obtain ⟨readies, runs, levels⟩ := left
  have dropped := mirrors_leave mirrors rep given there here
  have away : ∀ p, spot ≠ .ready p := by rcases chained with rfl | ⟨s, rfl⟩ <;> simp
  have linked : spot ≠ .gone := by rcases chained with rfl | ⟨s, rfl⟩ <;> simp
  constructor
  · intro p
    rw [readies, dropped.ready]
    exact (Function.update_of_ne (away p).symm _ _).symm
  · rw [asleep, park_members here .asleep (by simp), mirrors.asleep]
    simp only [eq_comm]
    split
    · next same => rw [same]
    · rfl
  · intro s
    rw [waiting, park_members here (.waiting s) (by simp), mirrors.waiting]
    simp only [eq_comm]
    split
    · next same => rw [same]
    · rfl
  · intro d
    rw [runs]
    exact dropped.running d
  · intro x live
    rw [levels, priority]
    apply mirrors.level
    intro gone
    exact live ((park_alive (by simp [here]) linked x).mpr gone)
  · intro x sleeps
    apply ticks
    by_cases this : x = t
    · subst this
      exact .inr ⟨rfl, by simpa [Queues.park, Queues.enter] using sleeps⟩
    · left
      simpa [Queues.park, Queues.drop, Queues.enter, Queues.leave, this] using sleeps

end Lists

/-! A dispatch. -/
section Dispatch
variable {c : Core}

/-- Once the caller's thread is put back, a thread of a level runs exactly if the
other core has it. -/
theorem runs_elsewhere (rep : Rep slots k q) (mirrors : Mirrors k q r) (idle : q.running c = null)
    {p t : Nat} (member : t ∈ q.members (.ready p)) : k.state t = .running ↔ ¬ r.Free c t := by
  have here := rep.ready_members.mp member
  have there : t ≠ null := rep.listed.ne_null t (by simp [here])
  rw [(rep.fits here).2.2.2, Roster.Free, not_not, mirrors.running, present_eq_some there]
  constructor
  · rintro ⟨d, runs⟩
    have other : d ≠ c := by
      rintro rfl
      exact there (runs.symm.trans idle)
    rwa [← Core.eq_of_ne other (Core.other_ne c)]
  · exact fun runs => ⟨c.other, runs⟩

theorem active_free (rep : Rep slots k q) (mirrors : Mirrors k q r) (idle : q.running c = null)
    {p : Nat} (below : p < priorityLvlCnt) :
    k.activePriorityCount p ≠ 0 ↔ ∃ t ∈ r.ready p, r.Free c t := by
  rw [(rep.counted p below).active, mirrors.ready, inState, ← Nat.pos_iff_ne_zero,
    List.countP_pos_iff]
  apply exists_congr
  intro t
  apply and_congr_right
  intro member
  have ready := (rep.fits (rep.ready_members.mp member)).2.2.1
  have runs := runs_elsewhere rep mirrors idle member
  rw [decide_eq_true_iff]
  constructor
  · intro active
    by_contra busy
    rw [runs.mpr busy] at active
    cases active
  · intro free
    exact ready.resolve_left fun busy => runs.mp busy free

theorem firstActive_best (rep : Rep slots k q) (mirrors : Mirrors k q r) (idle : q.running c = null)
    (level : k.activePriorityCount idlePriority ≠ 0) :
    firstActive k.activePriorityCount = some ((r.best c).getD idlePriority) := by
  have same : ∀ p ∈ List.range priorityLvlCnt, decide (k.activePriorityCount p ≠ 0) =
      decide (∃ t ∈ r.ready p, r.Free c t) := by
    intro p member
    rw [decide_eq_decide]
    exact active_free rep mirrors idle (List.mem_range.mp member)
  rw [firstActive, idlePriority, List.range_succ, List.find?_append, Roster.best,
    List.find?_congr same]
  cases List.find? (fun p => decide (∃ t ∈ r.ready p, r.Free c t)) (List.range priorityLvlCnt) with
  | some p => rfl
  | none =>
      have last : k.activePriorityCount priorityLvlCnt ≠ 0 := level
      simp [last]

theorem turn_rotation (rep : Rep slots k q) (mirrors : Mirrors k q r) {p : Nat} :
    r.turn c (r.ready p) = Rotation.turn (q.running c.other) (r.ready p) := by
  rw [mirrors.ready]
  cases nodes : q.members (.ready p) with
  | nil => rfl
  | cons first rest =>
      have here := rep.ready_members.mp (show first ∈ q.members (.ready p) by simp [nodes])
      have there : first ≠ null := rep.listed.ne_null first (by simp [here])
      have same : r.Free c first ↔ first ≠ q.running c.other := by
        rw [Roster.Free, mirrors.running, ne_eq, present_eq_some there, eq_comm]
      simp only [Roster.turn, Rotation.turn, same]
      by_cases held : first = q.running c.other
      · simp [held]
      · simp [held]

theorem best_spec {p : Nat} (best : r.best c = some p) :
    p < priorityLvlCnt ∧ ∃ t ∈ r.ready p, r.Free c t := by
  obtain ⟨some_free, inside, _⟩ := List.find?_range_eq_some.mp best
  exact ⟨List.mem_range.mp inside, of_decide_eq_true some_free⟩

theorem dispatch_nobody (best : r.best c = none) :
    r.dispatch c = { r with running := Function.update r.running c none } := by
  simp only [Roster.dispatch, best, Option.bind_none]

theorem dispatch_given {p t : Nat} {nodes : List Nat} (best : r.best c = some p)
    (turned : r.turn c (r.ready p) = some (t, nodes)) :
    r.dispatch c = { r with
      ready := Function.update r.ready p nodes
      running := Function.update r.running c (some t) } := by
  simp only [Roster.dispatch, best, Option.bind_some, turned, Option.map_some]

/-- The roster does not care whether the caller's thread has been put back. -/
theorem dispatch_put_back (own : Option Nat) :
    ({ r with running := Function.update r.running c own }).dispatch c = r.dispatch c := by
  have free : ∀ t, ({ r with running := Function.update r.running c own }).Free c t ↔ r.Free c t := by
    intro t
    simp [Roster.Free, Function.update_of_ne (Core.other_ne c)]
  have best : ({ r with running := Function.update r.running c own }).best c = r.best c := by
    simp only [Roster.best, free]
  have turn : ∀ nodes, ({ r with running := Function.update r.running c own }).turn c nodes =
      r.turn c nodes := by
    intro nodes
    cases nodes with
    | nil => rfl
    | cons first rest => simp only [Roster.turn, free]
  simp only [Roster.dispatch, best, turn, Function.update_idem]

variable [DecidableEq Sem]

structure Given (slots : Slots) (k : Shared Sem) (q : Queues Sem) (r : Roster Nat Sem) (c : Core)
    (p t : Nat) (nodes : List Nat) : Prop where
  turned : r.turn c (r.ready p) = some (t, nodes)
  thread : (takeThread k p).2 = t
  there : t ≠ null
  rep : Rep slots (takeThread k p).1 ((q.turn p nodes).give c t)

theorem take_given (rep : Rep slots k q) (mirrors : Mirrors k q r) (idle : q.running c = null)
    {p : Nat} (below : p < priorityLvlCnt) (some_free : ∃ t ∈ r.ready p, r.Free c t) :
    ∃ t nodes, Given slots k q r c p t nodes := by
  have active := (active_free rep mirrors idle below).mpr some_free
  obtain ⟨nodes, taken⟩ := takeThread_taken rep idle below active
  have live : ∀ t ∈ q.members (.ready p), t ≠ null := by
    intro t member
    exact rep.listed.ne_null t (by simp [rep.ready_members.mp member])
  obtain ⟨x, member, free⟩ := some_free
  rw [mirrors.ready] at member
  have busy : ∀ t ∈ q.members (.ready p), k.state t = .running ↔ q.running c.other = t := by
    intro t member
    rw [runs_elsewhere rep mirrors idle member, Roster.Free, not_not, mirrors.running,
      present_eq_some (live t member)]
  have other : x ≠ q.running c.other := by
    rintro same
    exact (runs_elsewhere rep mirrors idle member).mp ((busy x member).mpr same.symm) free
  obtain ⟨after, turned, ring⟩ := Serialized.takeThread_turn (rep.joined (.ready p)) live busy
    ⟨x, member, other⟩
  have listed : ((q.turn p nodes).give c (takeThread k p).2).members (.ready p) = nodes :=
    Function.update_self _ _ _
  have same : nodes = after := by
    have links := taken.rep.joined (.ready p)
    have distinct := taken.rep.listed.distinct (.ready p)
    rw [listed] at links distinct
    exact Ring.unique links ring distinct
      ((Rotation.turn_perm turned).nodup_iff.mpr (rep.listed.distinct _))
  subst same
  rw [← mirrors.ready, ← turn_rotation rep mirrors] at turned
  exact ⟨_, nodes, turned, rfl, rep.listed.ne_null _ (by simp [taken.here]), taken.rep⟩

theorem mirrors_given (mirrors : Mirrors k q r) {p t : Nat} {nodes : List Nat}
    (best : r.best c = some p) (given : Given slots k q r c p t nodes) :
    Mirrors (takeThread k p).1 ((q.turn p nodes).give c t) (r.dispatch c) := by
  obtain ⟨priority, ticks, _, _⟩ := takeThread_kept k p
  rw [dispatch_given best given.turned]
  constructor
  · intro level
    simp only [Queues.give, Queues.turn, Function.update_apply, Place.ready.injEq, mirrors.ready]
  · simpa [Queues.give, Queues.turn] using mirrors.asleep
  · intro s
    simpa [Queues.give, Queues.turn] using mirrors.waiting s
  · intro d
    by_cases own : d = c
    · subst own
      simp [Queues.give, Queues.turn, present_of_ne given.there]
    · simpa [Queues.give, Queues.turn, own] using mirrors.running d
  · intro x live
    rw [priority]
    exact mirrors.level x live
  · intro x sleeps
    rw [ticks]
    exact mirrors.tick x sleeps

omit [DecidableEq Sem] in
theorem mirrors_put_back {k : Kernel Sem} (rep : Rep slots k.toShared q) (own : Own k q c)
    (started : k.runPt c ≠ null) (now : Nat) (mirrors : Mirrors k.toShared q r) :
    Mirrors (settle k c now).toShared (q.give c null)
      { r with running := Function.update r.running c none } := by
  obtain ⟨tasks, _⟩ := settle_tasks now rep own started
  constructor
  · exact mirrors.ready
  · exact mirrors.asleep
  · exact mirrors.waiting
  · intro d
    by_cases this : d = c
    · subst this
      simp [Queues.give]
    · simpa [Queues.give, this] using mirrors.running d
  · intro t live
    rw [tasks.priority]
    exact mirrors.level t live
  · intro t sleeps
    rw [tasks.resumeTick]
    exact mirrors.tick t sleeps

theorem schedule_mirrors {k k' : Kernel Sem} {times : Readings} (rep : Rep slots k.toShared q)
    (own : Own k q c) (started : k.runPt c ≠ null)
    (level : k.activePriorityCount idlePriority ≠ 0) (mirrors : Mirrors k.toShared q r)
    (answer : schedule k c times = some k') :
    ∃ q', Rep slots k'.toShared q' ∧ Mirrors k'.toShared q' (r.dispatch c) ∧
      (∀ d, d ≠ c → q'.running d = q.running d) ∧
      k'.nextRunPt c = if q'.running c = null then k.idleThread c else q'.running c := by
  obtain ⟨tasks, _⟩ := settle_tasks times.exitIdle rep own started
  have settled := settle_rep rep own started times.exitIdle
  have settled_mirrors := mirrors_put_back rep own started times.exitIdle mirrors
  have idle : (q.give c null).running c = null := Function.update_self _ _ _
  have others : ∀ d, d ≠ c → (q.give c null).running d = q.running d := fun d other =>
    Function.update_of_ne other _ _
  have scan := firstActive_best settled settled_mirrors idle (by rwa [tasks.idleLevel])
  rw [schedule, selectNext, scan, Option.map_some, Option.some.injEq] at answer
  rw [← dispatch_put_back none]
  cases best : ({ r with running := Function.update r.running c none } : Roster Nat Sem).best c with
  | none =>
      rw [best, Option.getD_none, if_pos rfl] at answer
      subst answer
      refine ⟨q.give c null, settled, ?_, others, ?_⟩
      · rw [dispatch_nobody best, Function.update_idem]
        exact settled_mirrors
      · rw [idle, if_pos rfl]
        exact (Function.update_self _ _ _).trans (congrFun tasks.idleThread c)
  | some p =>
      obtain ⟨below, some_free⟩ := best_spec best
      obtain ⟨t, nodes, given⟩ := take_given settled settled_mirrors idle below some_free
      rw [best, Option.getD_some, if_neg (show p ≠ idlePriority from below.ne)] at answer
      subst answer
      refine ⟨_, given.rep, mirrors_given settled_mirrors best given, fun d other => ?_, ?_⟩
      · exact (Function.update_of_ne other _ _).trans (others d other)
      · have runs : (((q.give c null).turn p nodes).give c t).running c = t :=
          Function.update_self _ _ _
        rw [runs, if_neg given.there]
        exact (Function.update_self _ _ _).trans given.thread

omit [DecidableEq Sem] in
theorem firstDispatch_local {k k' : Kernel Sem} (answer : firstDispatch k c = some k') :
    (∀ d, d ≠ c → k'.runPt d = k.runPt d) ∧ k'.idleThread = k.idleThread := by
  obtain ⟨p, _, rfl⟩ := Option.map_eq_some_iff.mp answer
  split
  · exact ⟨fun d other => Function.update_of_ne other _ _, rfl⟩
  · exact ⟨fun d other => Function.update_of_ne other _ _, rfl⟩

theorem firstDispatch_mirrors {k k' : Kernel Sem} (rep : Rep slots k.toShared q)
    (idle : q.running c = null) (rest : RootsRest k.toShared q)
    (level : k.activePriorityCount idlePriority ≠ 0) (mirrors : Mirrors k.toShared q r)
    (answer : firstDispatch k c = some k') :
    ∃ q', Rep slots k'.toShared q' ∧ Mirrors k'.toShared q' (r.dispatch c) ∧
      (∀ d, d ≠ c → q'.running d = q.running d) ∧
      k'.runPt c = if q'.running c = null then k.idleThread c else q'.running c := by
  rw [firstDispatch, firstActive_best rep mirrors idle level, Option.map_some,
    Option.some.injEq] at answer
  cases best : r.best c with
  | none =>
      rw [best, Option.getD_none, if_pos rfl] at answer
      subst answer
      refine ⟨q, rep, ?_, fun _ _ => rfl, ?_⟩
      · have off : r.running c = none := by rw [mirrors.running, idle, present_null]
        rw [dispatch_nobody best, ← off, Function.update_eq_self]
        exact mirrors
      · rw [idle, if_pos rfl]
        exact Function.update_self _ _ _
  | some p =>
      obtain ⟨below, some_free⟩ := best_spec best
      have root := rest.root_idle rep below ((active_free rep mirrors idle below).mpr some_free)
      have same : takeThread k.toShared p = takeRoot k.toShared p := by
        rw [takeThread, if_neg root]
      obtain ⟨t, nodes, given⟩ := take_given rep mirrors idle below some_free
      rw [best, Option.getD_some, if_neg (show p ≠ idlePriority from below.ne), ← same] at answer
      subst answer
      refine ⟨_, given.rep, mirrors_given mirrors best given, fun d other => ?_, ?_⟩
      · exact Function.update_of_ne other _ _
      · have runs : ((q.turn p nodes).give c t).running c = t := Function.update_self _ _ _
        rw [runs, if_neg given.there]
        exact (Function.update_self _ _ _).trans given.thread

end Dispatch

end MulticoreRtos.Scheduler
