import MulticoreRtos.RunQueue

/-!
What `schedule()` and the first dispatch of a core select. The scan stops at the
first level with an active thread, and the pass over a root that runs on the
other core is enough as long as no third thread of the level runs.
-/

namespace MulticoreRtos.Scheduler

open LinkedList
open Heap (null)

variable {Sem : Type} {slots : Slots} {k k' : Shared Sem} {q : Queues Sem}

theorem firstActive_some {count : Nat → Nat} {pri : Nat} (found : firstActive count = some pri) :
    pri ≤ idlePriority ∧ count pri ≠ 0 ∧ ∀ r < pri, count r = 0 := by
  obtain ⟨here, inside, before⟩ := List.find?_range_eq_some.mp found
  refine ⟨Nat.lt_succ_iff.mp (List.mem_range.mp inside), by simpa using here, ?_⟩
  intro r below
  simpa using before r below

theorem firstActive_idle {count : Nat → Nat} (idle : count idlePriority ≠ 0) :
    ∃ pri, firstActive count = some pri := by
  apply Option.isSome_iff_exists.mp
  rw [firstActive, List.find?_isSome]
  exact ⟨idlePriority, List.mem_range.mpr (Nat.lt_succ_self _), by simpa using idle⟩

theorem Joined.same (joined : Joined k q) (next : k'.nextTcb = k.nextTcb)
    (prev : k'.prevTcb = k.prevTcb) (roots : k'.threadSchedule = k.threadSchedule)
    (sleepers : k'.sleepScheduleRoot = k.sleepScheduleRoot)
    (waiters : k'.bthreadsRoot = k.bthreadsRoot) : Joined k' q := by
  intro spot
  have links := joined spot
  cases spot with
  | gone => trivial
  | ready p => simpa only [Links, rootOf, next, prev, roots] using links
  | asleep => simpa only [Links, rootOf, next, sleepers] using links
  | waiting s => simpa only [Links, rootOf, next, waiters] using links

/-! A core gives up or takes a thread. -/

def Queues.give (q : Queues Sem) (c : Core) (t : Nat) : Queues Sem :=
  { q with running := Function.update q.running c t }

theorem Core.other_ne (c : Core) : c.other ≠ c := by
  cases c <;> decide

theorem Core.eq_of_ne {c d e : Core} (first : d ≠ c) (second : e ≠ c) : d = e := by
  cases c <;> cases d <;> cases e <;> simp_all

theorem give_null_runs (listed : Listed slots q) (c : Core) {x : Nat} (other : x ≠ q.running c)
    (live : q.place x ≠ .gone) :
    (∃ d, (q.give c null).running d = x) ↔ ∃ d, q.running d = x := by
  have present := listed.ne_null x live
  constructor
  · rintro ⟨d, runs⟩
    by_cases this : d = c
    · subst this
      exact absurd (runs.symm.trans (Function.update_self _ _ _)) present
    · exact ⟨d, (Function.update_of_ne this _ _).symm.trans runs⟩
  · rintro ⟨d, rfl⟩
    have this : d ≠ c := by
      rintro rfl
      exact other rfl
    exact ⟨d, Function.update_of_ne this _ _⟩

theorem Listed.give_null (listed : Listed slots q) (c : Core) : Listed slots (q.give c null) := by
  constructor
  · exact listed.members
  · exact listed.distinct
  · exact listed.inside
  · intro d busy
    by_cases this : d = c
    · subst this
      exact absurd (Function.update_self _ _ _) busy
    · simp only [Queues.give, Function.update_of_ne this] at busy ⊢
      exact listed.current d busy
  · intro d e busy both
    by_cases this : d = c
    · subst this
      exact absurd (Function.update_self _ _ _) busy
    · by_cases that : e = c
      · subst that
        simp only [Queues.give, Function.update_of_ne this, Function.update_self] at busy both
        exact absurd both busy
      · simp only [Queues.give, Function.update_of_ne this, Function.update_of_ne that] at busy both
        exact listed.apart d e busy both

theorem Rep.restate (rep : Rep slots k q) {t p : Nat} (here : q.place t = .ready p)
    {target : ThreadState} {running' : Core → Nat}
    (listed : Listed slots { q with running := running' })
    (others : ∀ x, x ≠ t → q.place x ≠ .gone →
      ((∃ c, running' c = x) ↔ ∃ c, q.running c = x))
    (known : target = .running ∨ target = .active) (runs : target = .running ↔ ∃ c, running' c = t)
    {actives runners : Nat → Nat}
    (apart : ∀ r, r ≠ p →
      actives r = k.activePriorityCount r ∧ runners r = k.runningPriorityCount r)
    (active : actives p + (if k.state t = .active then 1 else 0) =
      k.activePriorityCount p + if target = .active then 1 else 0)
    (running : runners p + (if k.state t = .running then 1 else 0) =
      k.runningPriorityCount p + if target = .running then 1 else 0) :
    Rep slots
      { k with
        state := Function.update k.state t target
        activePriorityCount := actives
        runningPriorityCount := runners }
      { q with running := running' } := by
  obtain ⟨level, below, _⟩ := rep.fits here
  have member := rep.ready_members.mpr here
  constructor
  · exact listed
  · exact rep.joined.same rfl rfl rfl rfl rfl
  · intro x
    by_cases this : x = t
    · subst this
      change Fits _ _ _ (q.place _)
      rw [here]
      refine ⟨level, below, ?_, ?_⟩
      · simpa only [Function.update_self] using known
      · simpa only [Function.update_self] using runs
    · by_cases live : q.place x = .gone
      · change Fits _ _ _ (q.place x)
        rw [live]
        trivial
      · exact (rep.stated x).congr rfl (Function.update_of_ne this _ _) (others x this live)
  · intro r under
    have count := rep.counted r under
    by_cases same : r = p
    · subst same
      have distinct := rep.listed.distinct (.ready r)
      have active_counted := inState_inside k.state .active target distinct member
      have running_counted := inState_inside k.state .running target distinct member
      rw [← count.active, ← active] at active_counted
      rw [← count.running, ← running] at running_counted
      exact ⟨(Nat.add_right_cancel active_counted).symm,
        (Nat.add_right_cancel running_counted).symm⟩
    · obtain ⟨same_actives, same_runners⟩ := apart r same
      apply count.congr same_actives same_runners
      intro x listed
      apply Function.update_of_ne
      rintro rfl
      exact same (by simpa using (rep.ready_members.mp listed).symm.trans here)

theorem count_bounds (rep : Rep slots k q) {t p : Nat} (here : q.place t = .ready p) :
    k.activePriorityCount p ≤ walkFuel ∧ k.runningPriorityCount p ≤ walkFuel ∧
      (k.state t = .active → 1 ≤ k.activePriorityCount p) ∧
      (k.state t = .running → 1 ≤ k.runningPriorityCount p) := by
  obtain ⟨_, below, _⟩ := rep.fits here
  have count := rep.counted p below
  have member := rep.ready_members.mpr here
  have length := rep.listed.length_le (.ready p) (by simp)
  rw [count.active, count.running]
  exact ⟨(inState_le _ _ _).trans length, (inState_le _ _ _).trans length,
    inState_pos .active member, inState_pos .running member⟩

theorem putBack_rep (rep : Rep slots k q) (c : Core) (present : q.running c ≠ null) :
    Rep slots (putBack k (q.running c)) (q.give c null) := by
  obtain ⟨p, here⟩ := rep.listed.current c present
  obtain ⟨rfl, below, _, runs⟩ := rep.fits here
  have running : k.state (q.running c) = .running := runs.mpr ⟨c, rfl⟩
  obtain ⟨few_active, few_running, _, some_running⟩ := count_bounds rep here
  have one := some_running running
  rw [putBack, if_pos running]
  refine rep.restate here (rep.listed.give_null c) (fun x other live =>
    give_null_runs rep.listed c other live) (Or.inr rfl) ?_ ?_ ?_ ?_
  · simp only [reduceCtorEq, false_iff]
    rintro ⟨d, same⟩
    by_cases that : d = c
    · subst that
      exact present (same.symm.trans (Function.update_self _ _ _))
    · have kept : (q.give c null).running d = q.running d := Function.update_of_ne that _ _
      exact that (rep.listed.apart c d present (kept.symm.trans same).symm).symm
  · exact fun r other => ⟨Function.update_of_ne other _ _, Function.update_of_ne other _ _⟩
  · simp [running, increment_small few_active]
  · simp [running, decrement_small few_running one]
    omega

theorem give_runs (listed : Listed slots q) {c : Core} (free : q.running c = null) {t x : Nat}
    (other : x ≠ t) (live : q.place x ≠ .gone) :
    (∃ d, (q.give c t).running d = x) ↔ ∃ d, q.running d = x := by
  have present := listed.ne_null x live
  constructor
  · rintro ⟨d, runs⟩
    by_cases this : d = c
    · subst this
      exact absurd (runs.symm.trans (Function.update_self _ _ _)) other
    · exact ⟨d, (Function.update_of_ne this _ _).symm.trans runs⟩
  · rintro ⟨d, rfl⟩
    have this : d ≠ c := by
      rintro rfl
      exact present free
    exact ⟨d, Function.update_of_ne this _ _⟩

theorem Listed.give (listed : Listed slots q) {c : Core} {t p : Nat}
    (here : q.place t = .ready p) (alone : ∀ d, q.running d ≠ t) : Listed slots (q.give c t) := by
  constructor
  · exact listed.members
  · exact listed.distinct
  · exact listed.inside
  · intro d busy
    by_cases this : d = c
    · subst this
      exact ⟨p, by simpa [Queues.give] using here⟩
    · simp only [Queues.give, Function.update_of_ne this] at busy ⊢
      exact listed.current d busy
  · intro d e busy both
    by_cases this : d = c
    · subst this
      by_cases that : e = d
      · exact that.symm
      · simp only [Queues.give, Function.update_self, Function.update_of_ne that] at both
        exact absurd both.symm (alone e)
    · by_cases that : e = c
      · subst that
        simp only [Queues.give, Function.update_self, Function.update_of_ne this] at both
        exact absurd both (alone d)
      · simp only [Queues.give, Function.update_of_ne this, Function.update_of_ne that] at busy both
        exact listed.apart d e busy both

theorem markRunning_rep (rep : Rep slots k q) {c : Core} (free : q.running c = null) {t p : Nat}
    (here : q.place t = .ready p) (waits : k.state t = .active) :
    Rep slots (markRunning k p t) (q.give c t) := by
  obtain ⟨_, _, _, runs⟩ := rep.fits here
  have alone (d : Core) : q.running d ≠ t := by
    intro same
    rw [runs.mpr ⟨d, same⟩] at waits
    exact nomatch waits
  obtain ⟨few_active, few_running, some_active, _⟩ := count_bounds rep here
  have one := some_active waits
  refine rep.restate here (rep.listed.give here alone) (fun x other live =>
    give_runs rep.listed free other live) (Or.inl rfl) ?_ ?_ ?_ ?_
  · exact iff_of_true rfl ⟨c, Function.update_self _ _ _⟩
  · exact fun r other => ⟨Function.update_of_ne other _ _, Function.update_of_ne other _ _⟩
  · simp [waits, decrement_small few_active one]
    omega
  · simp [waits, increment_small few_running]

/-! The root of a level moves on. -/

variable [DecidableEq Sem]

def Queues.turn (q : Queues Sem) (p : Nat) (nodes : List Nat) : Queues Sem :=
  { q with members := Function.update q.members (.ready p) nodes }

theorem turn_rep (rep : Rep slots k q) {p root : Nat} {rest : List Nat}
    (nodes : q.members (.ready p) = root :: rest) :
    Rep slots
      { k with threadSchedule := Function.update k.threadSchedule p (k.nextTcb root) }
      (q.turn p (rest ++ [root])) := by
  have perm : (rest ++ [root]).Perm (q.members (.ready p)) := by
    rw [nodes]
    exact List.perm_append_comm
  have ring : Ring null k.nextTcb k.prevTcb (k.threadSchedule p) (root :: rest) := by
    have links := rep.joined (.ready p)
    rwa [nodes] at links
  have linked : Place.ready p ≠ (.gone : Place Sem) := by simp
  have present : ∀ y ∈ rest, y ≠ null := by
    intro y member
    exact rep.listed.present linked (by simp [nodes, member])
  have turned : Ring null k.nextTcb k.prevTcb (k.nextTcb root) (rest ++ [root]) := by
    have moved := ring.turn present
    rwa [ring.1] at moved
  constructor
  · constructor
    · intro x spot linked
      by_cases here : spot = .ready p
      · subst here
        simpa [Queues.turn, perm.mem_iff] using rep.listed.members x (.ready p) linked
      · simpa [Queues.turn, Function.update_of_ne here] using rep.listed.members x spot linked
    · intro spot
      by_cases here : spot = .ready p
      · subst here
        simpa [Queues.turn] using perm.nodup_iff.mpr (rep.listed.distinct (.ready p))
      · simpa [Queues.turn, Function.update_of_ne here] using rep.listed.distinct spot
    · exact rep.listed.inside
    · exact rep.listed.current
    · exact rep.listed.apart
  · apply rep.joined.change rep.listed (.ready p)
    · exact fun x _ _ => ⟨rfl, rfl⟩
    · simpa only [Links, rootOf, Function.update_self] using turned
    · intro other apart
      cases other with
      | gone => rfl
      | ready r =>
          apply Function.update_of_ne
          rintro rfl
          exact apart rfl
      | asleep => rfl
      | waiting s => rfl
  · exact fun x => (rep.stated x).congr rfl rfl Iff.rfl
  · apply rep.counted.change (.ready p)
    · intro r below same
      obtain rfl : p = r := by simpa using same
      exact ((rep.counted p below).perm perm.symm).congr rfl rfl fun _ _ => rfl
    · exact fun r _ _ => ⟨rfl, rfl, fun _ _ => rfl⟩

structure Taken (slots : Slots) (k k' : Shared Sem) (q : Queues Sem) (c : Core) (p t : Nat)
    (nodes : List Nat) : Prop where
  here : q.place t = .ready p
  waits : k.state t = .active
  perm : nodes.Perm (q.members (.ready p))
  behind : (∀ d, q.running d = null) → nodes.getLast? = some t
  rep : Rep slots k' ((q.turn p nodes).give c t)

theorem takeRoot_taken (rep : Rep slots k q) {c : Core} (free : q.running c = null) {p : Nat}
    (below : p < priorityLvlCnt) (some_active : k.activePriorityCount p ≠ 0)
    (idle_root : k.state (k.threadSchedule p) ≠ .running) :
    ∃ nodes, Taken slots k (takeRoot k p).1 q c p (takeRoot k p).2 nodes := by
  cases nodes : q.members (.ready p) with
  | nil =>
      rw [(rep.counted p below).active, nodes] at some_active
      exact absurd rfl some_active
  | cons root rest =>
      have ring := rep.joined (.ready p)
      rw [nodes] at ring
      have root_here : k.threadSchedule p = root := ring.1
      have here : q.place root = .ready p := rep.ready_members.mp (by simp [nodes])
      have fits := rep.fits here
      rw [root_here] at idle_root
      have waits : k.state root = .active := fits.2.2.1.resolve_left idle_root
      refine ⟨rest ++ [root], ?_⟩
      simp only [takeRoot, root_here]
      refine ⟨here, waits, ?_, by simp, ?_⟩
      · rw [nodes]
        exact List.perm_append_comm
      · exact markRunning_rep (turn_rep rep nodes) (t := root) (p := p) free here waits

omit [DecidableEq Sem] in
theorem Rep.runner (rep : Rep slots k q) {p x : Nat} (member : x ∈ q.members (.ready p))
    (runs : k.state x = .running) : x ≠ null ∧ ∃ c, q.running c = x := by
  have here := rep.ready_members.mp member
  have fits := rep.fits here
  exact ⟨rep.listed.ne_null x (by simp [here]), fits.2.2.2.mp runs⟩

omit [DecidableEq Sem] in
/-- While a core has no thread at most one thread of a level runs. -/
theorem Rep.waits_beside (rep : Rep slots k q) {c : Core} (free : q.running c = null) {p x y : Nat}
    (x_listed : x ∈ q.members (.ready p)) (y_listed : y ∈ q.members (.ready p)) (other : x ≠ y)
    (runs : k.state x = .running) : k.state y = .active := by
  have fits := rep.fits (rep.ready_members.mp y_listed)
  apply fits.2.2.1.resolve_left
  intro also
  obtain ⟨x_present, d, d_runs⟩ := rep.runner x_listed runs
  obtain ⟨y_present, e, e_runs⟩ := rep.runner y_listed also
  have d_other : d ≠ c := by
    rintro rfl
    exact x_present (d_runs.symm.trans free)
  have e_other : e ≠ c := by
    rintro rfl
    exact y_present (e_runs.symm.trans free)
  exact other (by rw [← d_runs, ← e_runs, Core.eq_of_ne d_other e_other])

theorem takeThread_taken (rep : Rep slots k q) {c : Core} (free : q.running c = null) {p : Nat}
    (below : p < priorityLvlCnt) (some_active : k.activePriorityCount p ≠ 0) :
    ∃ nodes, Taken slots k (takeThread k p).1 q c p (takeThread k p).2 nodes := by
  by_cases busy : k.state (k.threadSchedule p) = .running
  · cases nodes : q.members (.ready p) with
    | nil =>
        rw [(rep.counted p below).active, nodes] at some_active
        exact absurd rfl some_active
    | cons root rest =>
        have ring := rep.joined (.ready p)
        rw [nodes] at ring
        have root_here : k.threadSchedule p = root := ring.1
        have root_listed : root ∈ q.members (.ready p) := by simp [nodes]
        rw [root_here] at busy
        cases rest with
        | nil =>
            rw [(rep.counted p below).active, nodes] at some_active
            simp [inState, busy] at some_active
        | cons y more =>
            have second : k.nextTcb root = y := by
              rw [← root_here]
              exact Ring.next_root ring
            have distinct := rep.listed.distinct (.ready p)
            rw [nodes] at distinct
            have other : root ≠ y := fun same => (List.nodup_cons.mp distinct).1 (by simp [same])
            have y_listed : y ∈ q.members (.ready p) := by simp [nodes]
            have y_here := rep.ready_members.mp y_listed
            have waits := rep.waits_beside free root_listed y_listed other busy
            refine ⟨q.members (.ready p), ?_⟩
            simp only [takeThread, root_here, busy, if_true, second]
            have unturned : q.turn p (q.members (.ready p)) = q := by
              simp [Queues.turn]
            refine ⟨y_here, waits, List.Perm.refl _, ?_, ?_⟩
            · intro nobody
              obtain ⟨present, d, d_root⟩ := rep.runner root_listed busy
              exact absurd (d_root.symm.trans (nobody d)) present
            · rw [unturned]
              exact markRunning_rep rep free y_here waits
  · rw [takeThread, if_neg busy]
    exact takeRoot_taken rep free below some_active busy

/-! `schedule()` -/

/-- No root that runs has another thread behind it. -/
def RootsRest (k : Shared Sem) (q : Queues Sem) : Prop :=
  ∀ p root rest, q.members (.ready p) = root :: rest → rest ≠ [] → k.state root ≠ .running

omit [DecidableEq Sem] in
theorem Queues.nobody {c : Core} (free : q.running c = null)
    (others : ∀ d, d ≠ c → q.running d = null) (d : Core) : q.running d = null := by
  by_cases this : d = c
  · subst this
    exact free
  · exact others d this

omit [DecidableEq Sem] in
theorem Rep.given (rep : Rep slots k q) {c : Core} (given : q.running c ≠ null) :
    k.state (q.running c) = .running ∧ q.place (q.running c) = .ready (k.priority (q.running c)) := by
  obtain ⟨p, here⟩ := rep.listed.current c given
  have fits := rep.fits here
  exact ⟨fits.2.2.2.mpr ⟨c, rfl⟩, by rw [fits.1]; exact here⟩

omit [DecidableEq Sem] in
theorem Rep.runs_iff (rep : Rep slots k q) {t : Nat} (live : q.place t ≠ .gone) :
    k.state t = .running ↔ ∃ c, q.running c = t := by
  constructor
  · intro runs
    have fits := rep.stated t
    cases here : q.place t with
    | gone => exact absurd here live
    | ready p =>
        rw [here] at fits
        exact fits.2.2.2.mp runs
    | asleep =>
        rw [here] at fits
        exact nomatch fits.2.symm.trans runs
    | waiting s =>
        rw [here] at fits
        exact nomatch fits.2.symm.trans runs
  · rintro ⟨c, rfl⟩
    exact (rep.given (rep.listed.ne_null _ live)).1

omit [DecidableEq Sem] in
theorem RootsRest.of_nobody (rep : Rep slots k q) (nobody : ∀ d, q.running d = null) :
    RootsRest k q := by
  intro p root rest nodes _ runs
  obtain ⟨present, d, same⟩ := rep.runner (p := p) (by simp [nodes]) runs
  exact present (same.symm.trans (nobody d))

/-- With nobody else running, the selected thread ends up at the back. -/
theorem Taken.rests {c : Core} {p t : Nat} {nodes : List Nat} (taken : Taken slots k k' q c p t nodes)
    (nobody : ∀ d, q.running d = null) : RootsRest k' ((q.turn p nodes).give c t) := by
  intro r root rest split several runs
  obtain ⟨present, d, same⟩ := taken.rep.runner (p := r) (x := root) (by simp [split]) runs
  have selected : root = t := by
    by_cases this : d = c
    · subst this
      exact same.symm.trans (Function.update_self _ _ _)
    · have kept := same.symm.trans (Function.update_of_ne this _ _)
      exact absurd (kept.trans (nobody d)) present
  subst selected
  have level : ((q.turn p nodes).give c root).place root = .ready r :=
    taken.rep.ready_members.mp (by rw [split]; exact List.mem_cons_self)
  obtain rfl : p = r := by simpa using taken.here.symm.trans level
  have turned : nodes = root :: rest := by simpa [Queues.give, Queues.turn] using split
  have distinct := taken.rep.listed.distinct (.ready p)
  rw [split] at distinct
  have last := taken.behind nobody
  rw [turned, List.getLast?_cons_of_ne_nil several] at last
  exact (List.nodup_cons.mp distinct).1 (List.mem_of_getLast? last)

omit [DecidableEq Sem] in
theorem active_count (rep : Rep slots k q) {r : Nat} (below : r < priorityLvlCnt)
    (some_active : k.activePriorityCount r ≠ 0) : ∃ t, q.place t = .ready r ∧ k.state t = .active := by
  rw [(rep.counted r below).active] at some_active
  obtain ⟨t, member, active⟩ := List.countP_pos_iff.mp (Nat.pos_of_ne_zero some_active)
  exact ⟨t, rep.ready_members.mp member, by simpa using active⟩

omit [DecidableEq Sem] in
theorem live_active (rep : Rep slots k q) {t : Nat} (live : q.place t ≠ .gone)
    (waits : k.state t = .active) :
    k.priority t < priorityLvlCnt ∧ k.activePriorityCount (k.priority t) ≠ 0 := by
  have fits := rep.stated t
  cases here : q.place t with
  | gone => exact absurd here live
  | ready p =>
      rw [here] at fits
      obtain ⟨rfl, below, _⟩ := fits
      refine ⟨below, ?_⟩
      rw [(rep.counted _ below).active]
      have one := inState_pos _ (rep.ready_members.mpr here) waits
      exact Nat.pos_iff_ne_zero.mp one
  | asleep =>
      rw [here] at fits
      rw [fits.2] at waits
      exact nomatch waits
  | waiting s =>
      rw [here] at fits
      rw [fits.2] at waits
      exact nomatch waits

/-- What a dispatch from state `k`, the caller's own thread put back, owes:
`chosen` is an active thread of the best level, or the idle thread. -/
structure DispatchOk (live : Nat → Prop) (k : Kernel Sem) (c : Core) (chosen : Nat) : Prop where
  scan : ∃ pri, firstActive k.activePriorityCount = some pri ∧ pri ≤ idlePriority
  choice : (∃ t, live t ∧ k.state t = .active) →
    live chosen ∧ k.state chosen = .active ∧
      ∀ t, live t → k.state t = .active → k.priority chosen ≤ k.priority t
  idle : (¬ ∃ t, live t ∧ k.state t = .active) → chosen = k.idleThread c

omit [DecidableEq Sem] in
theorem dispatch_idle {k : Kernel Sem} (rep : Rep slots k.toShared q) (c : Core)
    (found : firstActive k.activePriorityCount = some idlePriority) :
    DispatchOk (q.place · ≠ .gone) k c (k.idleThread c) := by
  obtain ⟨bound, _, before⟩ := firstActive_some found
  constructor
  · exact ⟨_, found, bound⟩
  · rintro ⟨t, live, waits⟩
    obtain ⟨below, some_active⟩ := live_active rep live waits
    exact absurd (before _ below) some_active
  · exact fun _ => rfl

omit [DecidableEq Sem] in
theorem dispatch_thread {k : Kernel Sem} (rep : Rep slots k.toShared q) (c : Core) {pri t : Nat}
    (found : firstActive k.activePriorityCount = some pri) (here : q.place t = .ready pri)
    (waits : k.state t = .active) : DispatchOk (q.place · ≠ .gone) k c t := by
  obtain ⟨bound, _, before⟩ := firstActive_some found
  have fits := rep.fits here
  have live : q.place t ≠ .gone := by simp [here]
  constructor
  · exact ⟨_, found, bound⟩
  · refine fun _ => ⟨live, waits, fun u u_live u_waits => ?_⟩
    rw [fits.1]
    by_contra smaller
    exact (live_active rep u_live u_waits).2 (before _ (Nat.lt_of_not_le smaller))
  · exact fun nobody => absurd ⟨t, live, waits⟩ nobody

structure SameTasks (k k' : Kernel Sem) : Prop where
  runPt : k'.runPt = k.runPt
  idleThread : k'.idleThread = k.idleThread
  stack : k'.stack = k.stack
  priority : k'.priority = k.priority
  resumeTick : k'.resumeTick = k.resumeTick
  schedulerHeld : k'.schedulerHeld = k.schedulerHeld
  idleLevel : k'.activePriorityCount idlePriority = k.activePriorityCount idlePriority

structure Scheduled (slots : Slots) (k k' : Kernel Sem) (q q' : Queues Sem) (c : Core) :
    Prop where
  rep : Rep slots k'.toShared q'
  place : q'.place = q.place
  lists : ∀ spot, (∀ p, spot ≠ .ready p) → q'.members spot = q.members spot
  others : ∀ d, d ≠ c → q'.running d = q.running d
  next : k'.nextRunPt = Function.update k.nextRunPt c
    (if q'.running c = null then k.idleThread c else q'.running c)
  pending : k'.pendSv = Function.update k.pendSv c true
  unlinked : ∀ x, q.place x = .gone → k'.state x = k.state x
  rests : (∀ d, d ≠ c → q.running d = null) → RootsRest k'.toShared q'
  tasks : SameTasks k k'

/-- The scheduler's thread of a core is its current one, if that runs. -/
def Own (k : Kernel Sem) (q : Queues Sem) (c : Core) : Prop :=
  q.running c = if k.state (k.runPt c) = .running then k.runPt c else null

omit [DecidableEq Sem] in
theorem settle_shared (k : Kernel Sem) (c : Core) (now : Nat) :
    (settle k c now).toShared = putBack k.toShared (k.runPt c) := by
  unfold settle
  split <;> rfl

omit [DecidableEq Sem] in
theorem settle_active (k : Kernel Sem) (c : Core) (now t : Nat) :
    (settle k c now).state t = .active ↔
      k.state t = .active ∨ k.runPt c = t ∧ k.state t = .running := by
  rw [settle_shared, putBack]
  by_cases busy : k.state (k.runPt c) = .running
  · rw [if_pos busy]
    by_cases mine : k.runPt c = t
    · subst mine
      simp [busy]
    · simp [mine, Function.update_of_ne (Ne.symm mine)]
  · rw [if_neg busy]
    constructor
    · exact Or.inl
    · rintro (active | ⟨rfl, runs⟩)
      · exact active
      · exact absurd runs busy

omit [DecidableEq Sem] in
theorem settle_rep {k : Kernel Sem} {c : Core} (rep : Rep slots k.toShared q) (own : Own k q c)
    (started : k.runPt c ≠ null) (now : Nat) :
    Rep slots (settle k c now).toShared (q.give c null) := by
  rw [settle_shared]
  by_cases busy : k.state (k.runPt c) = .running
  · rw [Own, if_pos busy] at own
    rw [← own]
    exact putBack_rep rep c (by rwa [own])
  · rw [Own, if_neg busy] at own
    rw [putBack, if_neg busy, Queues.give, ← own, Function.update_eq_self]
    exact rep

omit [DecidableEq Sem] in
theorem putBack_kept (k : Shared Sem) (t : Nat) :
    (putBack k t).priority = k.priority ∧ (putBack k t).resumeTick = k.resumeTick ∧
      (∀ x, x ≠ t → (putBack k t).state x = k.state x) ∧
      ∀ p, p ≠ k.priority t → (putBack k t).activePriorityCount p = k.activePriorityCount p := by
  by_cases busy : k.state t = .running
  · rw [putBack, if_pos busy]
    exact ⟨rfl, rfl, fun _ other => Function.update_of_ne other _ _,
      fun _ other => Function.update_of_ne other _ _⟩
  · rw [putBack, if_neg busy]
    exact ⟨rfl, rfl, fun _ _ => rfl, fun _ _ => rfl⟩

omit [DecidableEq Sem] in
theorem settle_local (k : Kernel Sem) (c : Core) (now : Nat) :
    (settle k c now).runPt = k.runPt ∧ (settle k c now).idleThread = k.idleThread ∧
      (settle k c now).stack = k.stack ∧ (settle k c now).schedulerHeld = k.schedulerHeld ∧
      (settle k c now).nextRunPt = k.nextRunPt ∧ (settle k c now).pendSv = k.pendSv := by
  by_cases idle : k.state (k.runPt c) = .idle
  · simp [settle, idle, exitIdle]
  · simp [settle, idle]

omit [DecidableEq Sem] in
theorem current_ready {k : Kernel Sem} {c : Core} (rep : Rep slots k.toShared q) (own : Own k q c)
    (started : k.runPt c ≠ null) (busy : k.state (k.runPt c) = .running) :
    q.running c = k.runPt c ∧ q.place (k.runPt c) = .ready (k.priority (k.runPt c)) ∧
      k.priority (k.runPt c) < priorityLvlCnt := by
  rw [Own, if_pos busy] at own
  obtain ⟨p, here⟩ := rep.listed.current c (by rwa [own])
  rw [own] at here
  have fits := rep.fits here
  rw [fits.1]
  exact ⟨own, here, fits.2.1⟩

omit [DecidableEq Sem] in
theorem settle_tasks {k : Kernel Sem} {c : Core} (now : Nat) (rep : Rep slots k.toShared q)
    (own : Own k q c) (started : k.runPt c ≠ null) :
    SameTasks k (settle k c now) ∧
      ∀ x, q.place x = .gone → (settle k c now).state x = k.state x := by
  obtain ⟨runs, idles, blocks, held, _, _⟩ := settle_local k c now
  have shared := settle_shared k c now
  by_cases busy : k.state (k.runPt c) = .running
  · obtain ⟨_, here, below⟩ := current_ready rep own started busy
    obtain ⟨priorities, ticks, states, levels⟩ := putBack_kept k.toShared (k.runPt c)
    rw [← shared] at priorities ticks states levels
    refine ⟨⟨runs, idles, blocks, priorities, ticks, held, levels _ below.ne'⟩, ?_⟩
    intro x gone
    apply states x
    rintro rfl
    rw [gone] at here
    exact nomatch here
  · rw [putBack, if_neg busy] at shared
    refine ⟨⟨runs, idles, blocks, by rw [shared], by rw [shared], held, by rw [shared]⟩, ?_⟩
    intro x _
    rw [shared]

omit [DecidableEq Sem] in
theorem takeThread_kept (k : Shared Sem) (p : Nat) :
    (takeThread k p).1.priority = k.priority ∧ (takeThread k p).1.resumeTick = k.resumeTick ∧
      (∀ x, x ≠ (takeThread k p).2 → (takeThread k p).1.state x = k.state x) ∧
      ∀ r, r ≠ p → (takeThread k p).1.activePriorityCount r = k.activePriorityCount r := by
  by_cases busy : k.state (k.threadSchedule p) = .running
  · rw [takeThread, if_pos busy]
    exact ⟨rfl, rfl, fun _ other => Function.update_of_ne other _ _,
      fun _ other => Function.update_of_ne other _ _⟩
  · rw [takeThread, if_neg busy]
    exact ⟨rfl, rfl, fun _ other => Function.update_of_ne other _ _,
      fun _ other => Function.update_of_ne other _ _⟩

theorem selectNext_spec {k : Kernel Sem} {c : Core} (now : Nat) (rep : Rep slots k.toShared q)
    (free : q.running c = null) (idle : k.activePriorityCount idlePriority ≠ 0) :
    ∃ k' q', selectNext k c now = some k' ∧ Scheduled slots k k' q q' c ∧
      DispatchOk (q.place · ≠ .gone) k c (k'.nextRunPt c) := by
  obtain ⟨pri, found⟩ := firstActive_idle idle
  obtain ⟨bound, some_active, _⟩ := firstActive_some found
  by_cases idles : pri = idlePriority
  · subst idles
    obtain ⟨k', selected⟩ : ∃ k', selectNext k c now = some k' := by simp [selectNext, found]
    refine ⟨k', q, selected, ?_⟩
    rw [selectNext, found, Option.map_some, if_pos rfl, Option.some.injEq] at selected
    subst selected
    constructor
    · refine ⟨rep, rfl, fun _ _ => rfl, fun _ _ => rfl, ?_, rfl, fun _ _ => rfl, ?_,
        rfl, rfl, rfl, rfl, rfl, rfl, rfl⟩
      · rw [free, if_pos rfl]
        rfl
      · exact fun others => RootsRest.of_nobody rep (Queues.nobody free others)
    · have chosen := dispatch_idle rep c found
      simpa only [enterIdle, Function.update_self] using chosen
  · have below : pri < priorityLvlCnt := lt_of_le_of_ne bound idles
    obtain ⟨nodes, taken⟩ := takeThread_taken rep free below some_active
    obtain ⟨priorities, ticks, states, levels⟩ := takeThread_kept k.toShared pri
    have present := rep.listed.ne_null _ (by rw [taken.here]; simp)
    obtain ⟨k', selected⟩ : ∃ k', selectNext k c now = some k' := by simp [selectNext, found]
    refine ⟨k', (q.turn pri nodes).give c (takeThread k.toShared pri).2, selected, ?_⟩
    rw [selectNext, found, Option.map_some, if_neg idles, Option.some.injEq] at selected
    subst selected
    constructor
    · refine ⟨taken.rep, rfl, ?_, ?_, ?_, rfl, ?_, fun others => taken.rests
        (Queues.nobody free others), rfl, rfl, rfl, priorities, ticks, rfl, levels _ below.ne'⟩
      · intro spot away
        exact Function.update_of_ne (away pri) _ _
      · intro d other
        exact Function.update_of_ne other _ _
      · simp [Queues.give, Queues.turn, present]
      · intro x gone
        apply states x
        rintro rfl
        rw [taken.here] at gone
        exact nomatch gone
    · have chosen := dispatch_thread rep c found taken.here taken.waits
      simpa only [Function.update_self] using chosen

/-- A call of `schedule()` completes, keeps the queues in order and selects the
best thread. -/
theorem schedule_spec {k : Kernel Sem} {c : Core} (times : Readings)
    (rep : Rep slots k.toShared q) (own : Own k q c) (started : k.runPt c ≠ null)
    (idle : k.activePriorityCount idlePriority ≠ 0) :
    ∃ k' q', schedule k c times = some k' ∧ Scheduled slots k k' q q' c ∧
      DispatchOk (q.place · ≠ .gone) (settle k c times.exitIdle) c (k'.nextRunPt c) := by
  obtain ⟨tasks, unlinked⟩ := settle_tasks times.exitIdle rep own started
  obtain ⟨_, _, _, _, next, pending⟩ := settle_local k c times.exitIdle
  have settled := settle_rep rep own started times.exitIdle
  have free : (q.give c null).running c = null := Function.update_self _ _ _
  obtain ⟨k', q', selected, scheduled, chosen⟩ := selectNext_spec times.enterIdle settled free
    (by rwa [tasks.idleLevel])
  refine ⟨k', q', selected, ?_, chosen⟩
  have later := scheduled.tasks
  constructor
  · exact scheduled.rep
  · exact scheduled.place
  · exact scheduled.lists
  · intro d other
    rw [scheduled.others d other]
    exact Function.update_of_ne other _ _
  · rw [scheduled.next, next, tasks.idleThread]
  · rw [scheduled.pending, pending]
  · intro x gone
    rw [scheduled.unlinked x gone, unlinked x gone]
  · intro others
    apply scheduled.rests
    intro d other
    exact (Function.update_of_ne other _ _).trans (others d other)
  · exact ⟨later.runPt.trans tasks.runPt, later.idleThread.trans tasks.idleThread,
      later.stack.trans tasks.stack, later.priority.trans tasks.priority,
      later.resumeTick.trans tasks.resumeTick, later.schedulerHeld.trans tasks.schedulerHeld,
      later.idleLevel.trans tasks.idleLevel⟩

/-! The first dispatch of a core -/

omit [DecidableEq Sem] in
theorem RootsRest.root_idle (rest : RootsRest k q) (rep : Rep slots k q) {p : Nat}
    (below : p < priorityLvlCnt) (some_active : k.activePriorityCount p ≠ 0) :
    k.state (k.threadSchedule p) ≠ .running := by
  cases nodes : q.members (.ready p) with
  | nil =>
      rw [(rep.counted p below).active, nodes] at some_active
      exact absurd rfl some_active
  | cons root others =>
      have ring := rep.joined (.ready p)
      rw [nodes] at ring
      have root_here : k.threadSchedule p = root := ring.1
      rw [root_here]
      by_cases alone : others = []
      · subst alone
        intro runs
        rw [(rep.counted p below).active, nodes] at some_active
        simp [inState, runs] at some_active
      · exact rest p root others nodes alone

omit [DecidableEq Sem] in
/-- The idle TCB is on no list, so the queues do not see it. -/
theorem setupIdle_rep {k : Kernel Sem} (rep : Rep slots k.toShared q) (c : Core)
    {idleTcb : Nat} (gone : q.place idleTcb = .gone) (stack : Nat) :
    Rep slots (setupIdle k c idleTcb stack).toShared q := by
  apply kept_rep rep
  · intro x live
    have other : x ≠ idleTcb := by
      rintro rfl
      exact live gone
    exact ⟨rfl, rfl, Function.update_of_ne other _ _, Function.update_of_ne other _ _⟩
  · intro p below
    exact ⟨Function.update_of_ne below.ne _ _, rfl⟩
  · intro spot
    cases spot <;> rfl

structure Launched (slots : Slots) (k k' : Kernel Sem) (q q' : Queues Sem) (c : Core) : Prop where
  rep : Rep slots k'.toShared q'
  place : q'.place = q.place
  lists : ∀ spot, (∀ p, spot ≠ .ready p) → q'.members spot = q.members spot
  others : ∀ d, d ≠ c → q'.running d = q.running d
  current : k'.runPt = Function.update k.runPt c
    (if q'.running c = null then k.idleThread c else q'.running c)
  unlinked : ∀ x, q.place x = .gone → k'.state x = k.state x
  rests : (∀ d, d ≠ c → q.running d = null) → RootsRest k'.toShared q'
  idleThread : k'.idleThread = k.idleThread
  stack : k'.stack = k.stack
  priority : k'.priority = k.priority
  resumeTick : k'.resumeTick = k.resumeTick
  pendSv : k'.pendSv = k.pendSv
  schedulerHeld : k'.schedulerHeld = k.schedulerHeld
  idleLevel : k'.activePriorityCount idlePriority = k.activePriorityCount idlePriority

theorem firstDispatch_spec {k : Kernel Sem} {c : Core} (rep : Rep slots k.toShared q)
    (free : q.running c = null) (rest : RootsRest k.toShared q)
    (idle : k.activePriorityCount idlePriority ≠ 0) :
    ∃ k' q', firstDispatch k c = some k' ∧ Launched slots k k' q q' c ∧
      DispatchOk (q.place · ≠ .gone) k c (k'.runPt c) := by
  obtain ⟨pri, found⟩ := firstActive_idle idle
  obtain ⟨bound, some_active, _⟩ := firstActive_some found
  by_cases idles : pri = idlePriority
  · subst idles
    obtain ⟨k', launched⟩ : ∃ k', firstDispatch k c = some k' := by simp [firstDispatch, found]
    refine ⟨k', q, launched, ?_⟩
    rw [firstDispatch, found, Option.map_some, if_pos rfl, Option.some.injEq] at launched
    subst launched
    constructor
    · refine ⟨rep, rfl, fun _ _ => rfl, fun _ _ => rfl, ?_, fun _ _ => rfl, ?_, rfl, rfl, rfl, rfl,
        rfl, rfl, rfl⟩
      · rw [free, if_pos rfl]
      · exact fun others => RootsRest.of_nobody rep (Queues.nobody free others)
    · have chosen := dispatch_idle rep c found
      simpa only [Function.update_self] using chosen
  · have below : pri < priorityLvlCnt := lt_of_le_of_ne bound idles
    obtain ⟨nodes, taken⟩ := takeRoot_taken rep free below some_active
      (rest.root_idle rep below some_active)
    have present := rep.listed.ne_null _ (by rw [taken.here]; simp)
    obtain ⟨k', launched⟩ : ∃ k', firstDispatch k c = some k' := by simp [firstDispatch, found]
    refine ⟨k', (q.turn pri nodes).give c (takeRoot k.toShared pri).2, launched, ?_⟩
    rw [firstDispatch, found, Option.map_some, if_neg idles, Option.some.injEq] at launched
    subst launched
    constructor
    · refine ⟨taken.rep, rfl, ?_, ?_, ?_, ?_, fun others => taken.rests
        (Queues.nobody free others), rfl, rfl, rfl, rfl, rfl, rfl,
        Function.update_of_ne below.ne' _ _⟩
      · intro spot away
        exact Function.update_of_ne (away pri) _ _
      · intro d other
        exact Function.update_of_ne other _ _
      · simp [Queues.give, Queues.turn, present]
      · intro x gone
        apply Function.update_of_ne
        rintro rfl
        have here := taken.here
        rw [takeRoot, gone] at here
        exact nomatch here
    · have chosen := dispatch_thread rep c found taken.here taken.waits
      simpa only [Function.update_self] using chosen

end MulticoreRtos.Scheduler
