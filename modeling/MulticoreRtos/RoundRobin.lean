import MulticoreRtos.Rotation
import MulticoreRtos.SerializedRuns

/-!
Consecutive calls of `schedule()` on one core. With the other core's thread held
back, the ring of the best level is served in turn. A root that the other core
runs is passed over and stays the root, so from then on the thread behind it is
selected each time.
-/

namespace MulticoreRtos.Serialized

open Scheduler Transition LinkedList
open Heap (null)

variable {Sem : Type} [DecidableEq Sem] {layout : Layout Sem} {m m' : Machine Sem} {q : Queues Sem}

def Waits (m : Machine Sem) (c : Core) (p : Nat) : Prop :=
  ∃ t ∈ m.live, m.kernel.priority t = p ∧ (m.kernel.state t = .active ∨ m.kernel.runPt c = t)

structure TopLevel (m : Machine Sem) (c : Core) (p : Nat) : Prop where
  waits : Waits m c p
  least : ∀ r < p, ¬ Waits m c r

section Settled
variable {c : Core}

omit [DecidableEq Sem]

theorem settled_state (inv : Inv layout m q) (now : Nat) {t : Nat} (live : q.place t ≠ .gone) :
    (settle m.kernel c now).state t =
      if m.kernel.runPt c = t then .active else m.kernel.state t := by
  rw [settle_shared]
  by_cases mine : m.kernel.runPt c = t
  · have runs := (inv.runs_iff live).mpr ⟨c, mine⟩
    rw [if_pos mine, putBack, mine, if_pos runs]
    exact Function.update_self _ _ _
  · rw [if_neg mine]
    exact (putBack_kept m.kernel.toShared (m.kernel.runPt c)).2.2.1 t (Ne.symm mine)

theorem settled_active (inv : Inv layout m q) (now : Nat) {t : Nat} (live : q.place t ≠ .gone) :
    (settle m.kernel c now).state t = .active ↔
      m.kernel.state t = .active ∨ m.kernel.runPt c = t := by
  rw [settled_state inv now live]
  by_cases mine : m.kernel.runPt c = t
  · simp [mine]
  · simp [mine]

theorem settled_running (inv : Inv layout m q) (started : m.kernel.runPt c ≠ null) (now : Nat) {t : Nat}
    (live : q.place t ≠ .gone) : (settle m.kernel c now).state t = .running ↔
      m.kernel.runPt c.other = t := by
  rw [settled_state inv now live]
  by_cases mine : m.kernel.runPt c = t
  · rw [if_pos mine]
    constructor
    · intro active
      cases active
    · intro other
      have same := inv.current_apart (c := c) (d := c.other) started (mine.trans other.symm)
      exact absurd same.symm (Core.other_ne c)
  · rw [if_neg mine, inv.runs_iff live]
    constructor
    · rintro ⟨d, same⟩
      have apart : d ≠ c := by
        rintro rfl
        exact mine same
      rwa [← show d = c.other by revert apart; cases c <;> cases d <;> decide]
    · exact fun other => ⟨_, other⟩

theorem firstActive_intro {count : Nat → Nat} {p : Nat} (bound : p ≤ idlePriority)
    (here : count p ≠ 0) (before : ∀ r < p, count r = 0) : firstActive count = some p := by
  refine List.find?_range_eq_some.mpr ⟨by simpa using here,
    List.mem_range.mpr (Nat.lt_succ_of_le bound), ?_⟩
  intro r below
  simpa using before r below

theorem firstActive_settled (inv : Inv layout m q) (started : m.kernel.runPt c ≠ null) (now : Nat)
    {p : Nat} (top : TopLevel m c p) : p < priorityLvlCnt ∧
      firstActive (settle m.kernel c now).activePriorityCount = some p := by
  have rep := settle_rep inv.base.rep (inv.own started) started now
  have priorities : (settle m.kernel c now).priority = m.kernel.priority :=
    (settle_tasks now inv.base.rep (inv.own started) started).1.priority
  obtain ⟨t, member, level, waits⟩ := top.waits
  have live := (inv.base.live t).mp member
  have found := live_active rep live ((settled_active inv now live).mpr waits)
  rw [priorities, level] at found
  refine ⟨found.1, firstActive_intro found.1.le found.2 fun r lower => ?_⟩
  by_contra some_active
  obtain ⟨x, here, active⟩ := active_count rep (lower.trans found.1) some_active
  have x_live : q.place x ≠ .gone := by
    change q.place x = .ready r at here
    simp [here]
  have fits := rep.fits here
  have x_level : m.kernel.priority x = r := by
    rw [← priorities]
    exact fits.1
  exact top.least r lower ⟨x, (inv.base.live x).mpr x_live, x_level,
    (settled_active inv now x_live).mp active⟩

theorem schedule_taken {k k' : Kernel Sem} {times : Readings} {p : Nat} (below : p < priorityLvlCnt)
    (found : firstActive (settle k c times.exitIdle).activePriorityCount = some p)
    (answer : schedule k c times = some k') :
    k'.toShared = (takeThread (settle k c times.exitIdle).toShared p).1 ∧
      k'.nextRunPt c = (takeThread (settle k c times.exitIdle).toShared p).2 := by
  rw [schedule, selectNext, found, Option.map_some, if_neg (show p ≠ idlePriority from below.ne),
    Option.some.injEq] at answer
  subst answer
  exact ⟨rfl, Function.update_self _ _ _⟩

end Settled

/-! One call. -/
section Call
variable {c : Core} {p : Nat}

omit [DecidableEq Sem] in
/-- The selection from a ring is a turn, and the links do not change. -/
theorem takeThread_turn {k : Shared Sem} {held : Nat} {nodes : List Nat}
    (ring : Ring null k.nextTcb k.prevTcb (k.threadSchedule p) nodes) (present : ∀ t ∈ nodes, t ≠ null)
    (busy : ∀ t ∈ nodes, k.state t = .running ↔ held = t) (free : ∃ t ∈ nodes, t ≠ held) :
    ∃ after, Rotation.turn held nodes = some ((takeThread k p).2, after) ∧
      Ring null (takeThread k p).1.nextTcb (takeThread k p).1.prevTcb
        ((takeThread k p).1.threadSchedule p) after := by
  cases nodes with
  | nil =>
      obtain ⟨_, member, _⟩ := free
      cases member
  | cons root rest =>
      have root_here : k.threadSchedule p = root := ring.1
      have root_busy := busy root List.mem_cons_self
      by_cases runs : k.state root = .running
      · obtain rfl := root_busy.mp runs
        cases rest with
        | nil =>
            obtain ⟨t, member, other⟩ := free
            exact absurd (List.mem_singleton.mp member) other
        | cons second more =>
            have behind := ring.next_root
            rw [root_here] at behind
            refine ⟨held :: second :: more, ?_, ?_⟩
            · simp [Rotation.turn, takeThread, root_here, runs, behind]
            · simpa only [takeThread, root_here, runs, if_true] using root_here ▸ ring
      · have apart : root ≠ held := fun same => runs (root_busy.mpr same.symm)
        have turned := ring.turn fun t member => present t (List.mem_cons_of_mem _ member)
        rw [root_here] at turned
        refine ⟨rest ++ [root], ?_, ?_⟩
        · rw [Rotation.turn, if_neg apart, takeThread, root_here, if_neg runs, takeRoot, root_here]
        · rw [takeThread, root_here, if_neg runs, takeRoot, root_here]
          simpa only [markRunning, Function.update_self] using turned

structure Selected (m : Machine Sem) (q : Queues Sem) (c : Core) (p : Nat) (k' : Kernel Sem)
    (after : List Nat) : Prop where
  turned : Rotation.turn (m.kernel.runPt c.other) (q.members (.ready p)) =
    some (k'.nextRunPt c, after)
  ring : Ring null k'.nextTcb k'.prevTcb (k'.threadSchedule p) after
  inside : k'.nextRunPt c ∈ q.members (.ready p)
  untouched : ∀ t, q.place t ≠ .gone → t ≠ k'.nextRunPt c → k'.state t = .active →
    m.kernel.state t = .active ∨ m.kernel.runPt c = t

omit [DecidableEq Sem] in
theorem schedule_selects (inv : Inv layout m q) (started : m.kernel.runPt c ≠ null)
    (top : TopLevel m c p) {times : Readings} {k' : Kernel Sem}
    (answer : schedule m.kernel c times = some k') : ∃ after, Selected m q c p k' after := by
  obtain ⟨below, found⟩ := firstActive_settled inv started times.exitIdle top
  obtain ⟨shared, next⟩ := schedule_taken below found answer
  have rep := settle_rep inv.base.rep (inv.own started) started times.exitIdle
  have live_of {t : Nat} (member : t ∈ q.members (.ready p)) : q.place t ≠ .gone := by
    simp [inv.base.rep.ready_members.mp member]
  have free : ∃ t ∈ q.members (.ready p), t ≠ m.kernel.runPt c.other := by
    obtain ⟨w, member, level, waits⟩ := top.waits
    have live := (inv.base.live w).mp member
    have active := (settled_active inv times.exitIdle live).mpr waits
    refine ⟨w, (ready_members inv.base.rep inv.base.live p w).mpr ⟨member, level, ?_⟩, ?_⟩
    · exact waits.elim Or.inr fun mine => Or.inl ((inv.runs_iff live).mpr ⟨c, mine⟩)
    · rintro rfl
      have runs := (settled_running inv started times.exitIdle live).mpr rfl
      cases active.symm.trans runs
  obtain ⟨after, turned, ring⟩ := takeThread_turn (rep.joined (.ready p))
    (fun t member => inv.base.rep.listed.ne_null t (live_of member))
    (fun t member => settled_running inv started times.exitIdle (live_of member)) free
  rw [← next] at turned
  rw [← shared] at ring
  refine ⟨after, turned, ring, Rotation.turn_mem turned, fun t live other active => ?_⟩
  rw [next] at other
  have before := (takeThread_kept (settle m.kernel c times.exitIdle).toShared p).2.2.1 t other
  rw [← shared, active] at before
  exact (settled_active inv times.exitIdle live).mp before.symm

theorem schedule_turns (inv : Inv layout m q) (started : m.kernel.runPt c ≠ null)
    (top : TopLevel m c p) (times : Readings) :
    ∃ m' q', perform layout m (.schedule c times) = some m' ∧ Inv layout m' q' ∧
      Rotation.turn (m.kernel.runPt c.other) (q.members (.ready p)) =
        some (m'.kernel.runPt c, q'.members (.ready p)) ∧
      m'.kernel.runPt c.other = m.kernel.runPt c.other ∧ m'.kernel.runPt c ≠ null ∧
      TopLevel m' c p ∧ m'.kernel.schedulerHeld = m.kernel.schedulerHeld := by
  have idle := (inv.started started).1
  obtain ⟨k, _, answer, scheduled, _⟩ := schedule_spec times inv.base.rep (inv.own started) started
    (by rw [inv.base.idleLevel c idle]; exact Nat.one_ne_zero)
  obtain ⟨m', q', performed, inv', _⟩ := schedule_completes inv started times
  have pending : k.pendSv c = true := by rw [scheduled.pending, Function.update_self]
  have result := suspend_eq (m := m) times answer pending
  obtain rfl := Option.some.inj (result.symm.trans performed)
  have tasks := scheduled.tasks
  obtain ⟨after, selected⟩ := schedule_selects inv started top answer
  obtain ⟨chosen_live, chosen_level, _⟩ :=
    (ready_members inv.base.rep inv.base.live p _).mp selected.inside
  have current : (pendSvHandler k c times.sp).runPt c = k.nextRunPt c := Function.update_self _ _ _
  -- both are rings on the same links, so the level of the invariant is the turned one
  have same : q'.members (.ready p) = after := by
    have links : Ring null k.nextTcb k.prevTcb (k.threadSchedule p) (q'.members (.ready p)) :=
      inv'.base.rep.joined (.ready p)
    exact links.unique selected.ring (inv'.base.rep.listed.distinct _)
      ((Rotation.turn_perm selected.turned).nodup_iff.mpr (inv.base.rep.listed.distinct _))
  refine ⟨_, q', performed, inv', ?_, ?_, ?_, ⟨?_, ?_⟩, tasks.schedulerHeld⟩
  · simp only [current, same]
    exact selected.turned
  · simp only [pendSvHandler, Function.update_of_ne (Core.other_ne c), tasks.runPt]
  · simp only [current]
    exact inv.base.rep.listed.ne_null _ ((inv.base.live _).mp chosen_live)
  · refine ⟨_, chosen_live, ?_, Or.inr current⟩
    simp only [pendSvHandler, tasks.priority]
    exact chosen_level
  · rintro r lower ⟨x, member, level, waits⟩
    simp only [pendSvHandler, tasks.priority] at level
    have other : x ≠ k.nextRunPt c := by
      rintro rfl
      exact lower.ne (level.symm.trans chosen_level)
    rcases waits with active | mine
    · exact top.least r lower ⟨x, member, level,
        selected.untouched x ((inv.base.live x).mp member) other active⟩
    · exact other (mine.symm.trans current)

end Call

/-! Any number of calls. -/

def selections (layout : Layout Sem) (c : Core) : Machine Sem → List Readings → Option (List Nat)
  | _, [] => some []
  | m, times :: rest => do
      let m ← step layout m (.schedule c times)
      let later ← selections layout c m rest
      some (m.kernel.runPt c :: later)

instance (k : Shared Sem) (t : Nat) : Decidable (Ready k t) := inferInstanceAs (Decidable (_ ∨ _))

def ringSize (m : Machine Sem) (p : Nat) : Nat :=
  (m.live.filter fun t => m.kernel.priority t = p ∧ Ready m.kernel.toShared t).card

/-- In any `n` calls in a row, every thread of the ring that the other core does
not run is selected. -/
def RoundRobin (layout : Layout Sem) (m : Machine Sem) (c : Core) (p n : Nat) : Prop :=
  ∀ times chosen, selections layout c m times = some chosen →
    ∀ before row rest, chosen = before ++ row ++ rest → row.length = n →
      ∀ t ∈ m.live, m.kernel.priority t = p → Ready m.kernel.toShared t →
        m.kernel.runPt c.other ≠ t → t ∈ row

def OtherInRing (m : Machine Sem) (c : Core) (p : Nat) : Prop :=
  m.kernel.runPt c.other ∈ m.live ∧ m.kernel.priority (m.kernel.runPt c.other) = p

section Rows
variable {c : Core} {p : Nat}

theorem selections_turns (inv : Inv layout m q) (started : m.kernel.runPt c ≠ null)
    (unlocked : m.kernel.schedulerHeld = false) (top : TopLevel m c p) (times : List Readings) :
    ∃ chosen after, selections layout c m times = some chosen ∧
      Rotation.turns (m.kernel.runPt c.other) times.length (q.members (.ready p)) =
        some (chosen, after) := by
  induction times generalizing m q with
  | nil => exact ⟨[], _, rfl, rfl⟩
  | cons first rest ih =>
      obtain ⟨m', q', performed, inv', turned, other, started', top', held⟩ :=
        schedule_turns inv started top first
      obtain ⟨later, after, answer, turns⟩ := ih inv' started' (held.trans unlocked) top'
      have stepped : step layout m (.schedule c first) = some m' := by
        have enabled : Enabled layout m (.schedule c first) := started
        simp [step, unlocked, enabled, performed]
      rw [other] at turns
      refine ⟨m'.kernel.runPt c :: later, after, ?_, Rotation.turns_cons turned turns⟩
      rw [selections, stepped]
      simp [answer]

omit [DecidableEq Sem] in
theorem ringSize_length (inv : Inv layout m q) : ringSize m p = (q.members (.ready p)).length := by
  rw [ringSize, ← List.toFinset_card_of_nodup (inv.base.rep.listed.distinct (.ready p))]
  congr 1
  ext t
  rw [Finset.mem_filter, List.mem_toFinset, ready_members inv.base.rep inv.base.live]

theorem roundRobin_rows (inv : Inv layout m q) (started : m.kernel.runPt c ≠ null)
    (unlocked : m.kernel.schedulerHeld = false) (top : TopLevel m c p) :
    RoundRobin layout m c p (ringSize m p) ↔
      Rotation.EveryRow (m.kernel.runPt c.other) (q.members (.ready p)) := by
  have inside := ready_members inv.base.rep inv.base.live p
  rw [ringSize_length inv]
  constructor
  · intro fair count served after turned before row rest parts whole t member other
    obtain ⟨chosen, _, answer, turned'⟩ := selections_turns inv started unlocked top
      (List.replicate count readings)
    rw [List.length_replicate, turned] at turned'
    obtain rfl := (Prod.mk.inj (Option.some.inj turned')).1
    obtain ⟨live, level, ready⟩ := (inside t).mp member
    exact fair _ _ answer before row rest parts whole t live level ready (Ne.symm other)
  · intro fair times chosen answer before row rest parts whole t live level ready other
    obtain ⟨chosen', after, answer', turned⟩ := selections_turns inv started unlocked top times
    obtain rfl := Option.some.inj (answer.symm.trans answer')
    exact fair _ _ _ turned before row rest parts whole t ((inside t).mpr ⟨live, level, ready⟩)
      (Ne.symm other)

omit [DecidableEq Sem] in
theorem otherInRing_iff (inv : Inv layout m q) :
    OtherInRing m c p ↔ m.kernel.runPt c.other ∈ q.members (.ready p) := by
  rw [ready_members inv.base.rep inv.base.live, OtherInRing]
  constructor
  · rintro ⟨live, level⟩
    exact ⟨live, level, Or.inl ((inv.runs_iff ((inv.base.live _).mp live)).mpr ⟨_, rfl⟩)⟩
  · rintro ⟨live, level, _⟩
    exact ⟨live, level⟩

/-- In every reachable state each call of `schedule()` completes, and they are fair
to the best level exactly when the other core's thread is in another ring or
leaves at most one thread beside it. -/
theorem round_robin_iff (reached : Reaches (step layout) (Guard layout) (PowerOn layout) m)
    (started : m.kernel.runPt c ≠ null) (unlocked : m.kernel.schedulerHeld = false)
    (top : TopLevel m c p) :
    (∀ times, ∃ chosen, selections layout c m times = some chosen) ∧
      (RoundRobin layout m c p (ringSize m p) ↔ ¬ (OtherInRing m c p ∧ 3 ≤ ringSize m p)) := by
  obtain ⟨q, inv⟩ := run_inv reached
  constructor
  · intro times
    obtain ⟨chosen, _, answer, _⟩ := selections_turns inv started unlocked top times
    exact ⟨chosen, answer⟩
  · rw [roundRobin_rows inv started unlocked top, otherInRing_iff inv, ringSize_length inv]
    exact Rotation.every_row_iff (inv.base.rep.listed.distinct _)

end Rows

omit [DecidableEq Sem] in
theorem topLevel_iff (m : Machine Sem) (c : Core) (p : Nat) :
    TopLevel m c p ↔ Waits m c p ∧ ∀ r < p, ¬ Waits m c r :=
  ⟨fun top => ⟨top.waits, top.least⟩, fun ⟨waits, least⟩ => ⟨waits, least⟩⟩

instance (m : Machine Sem) (c : Core) (p : Nat) : Decidable (Waits m c p) :=
  inferInstanceAs (Decidable (∃ t ∈ m.live, _ ∧ _))

instance (m : Machine Sem) (c : Core) (p : Nat) : Decidable (TopLevel m c p) :=
  decidable_of_iff _ (topLevel_iff m c p).symm

instance (m : Machine Sem) (c : Core) (p : Nat) : Decidable (OtherInRing m c p) :=
  inferInstanceAs (Decidable (_ ∧ _))

def crowded : List (Call Unit) :=
  [.addThread 1024 1, .addThread 1024 1, .addThread 1024 1, .initScheduler .cpu0,
    .initScheduler .cpu1]

theorem round_robin_pair :
    ∃ m ∈ exec (step board) reset [.addThread 1024 1, .addThread 1024 1, .initScheduler .cpu0],
      RoundRobin board m .cpu0 1 (ringSize m 1) := by
  let run : List (Call Unit) := [.addThread 1024 1, .addThread 1024 1, .initScheduler .cpu0]
  obtain ⟨m, executed, started, unlocked, top, apart⟩ : ∃ m ∈ exec (step board) reset run,
      m.kernel.runPt .cpu0 ≠ null ∧ m.kernel.schedulerHeld = false ∧ TopLevel m .cpu0 1 ∧
        ¬ (OtherInRing m .cpu0 1 ∧ 3 ≤ ringSize m 1) := by
    decide +kernel
  have allowed : Allowed (step board) (Guard board) reset run := by decide +kernel
  have reached := exec_reaches run (.start reset_powerOn) allowed executed
  exact ⟨m, executed, (round_robin_iff reached started unlocked top).2.mpr apart⟩

/-- The thread of core 0 that is not behind core 1's never runs again. -/
theorem crowded_ring_starves :
    ∃ m, Reaches (step board) (Guard board) (PowerOn board) m ∧ TopLevel m .cpu0 1 ∧
      ¬ RoundRobin board m .cpu0 1 (ringSize m 1) := by
  obtain ⟨m, executed, top, chosen, answer, whole, t, live, level, ready, other, missed⟩ :
      ∃ m ∈ exec (step board) reset crowded, TopLevel m .cpu0 1 ∧
        ∃ chosen ∈ selections board .cpu0 m (List.replicate 5 readings),
          (chosen.drop 2).length = ringSize m 1 ∧ ∃ t ∈ m.live, m.kernel.priority t = 1 ∧
            Ready m.kernel.toShared t ∧ m.kernel.runPt .cpu1 ≠ t ∧ t ∉ chosen.drop 2 := by
    decide +kernel
  have allowed : Allowed (step board) (Guard board) reset crowded := by decide +kernel
  refine ⟨m, exec_reaches crowded (.start reset_powerOn) allowed executed, top, fun fair => ?_⟩
  have parts : chosen = chosen.take 2 ++ chosen.drop 2 ++ [] := by
    rw [List.append_nil, List.take_append_drop]
  exact missed (fair _ chosen answer _ _ _ parts whole t live level ready other)

end MulticoreRtos.Serialized
