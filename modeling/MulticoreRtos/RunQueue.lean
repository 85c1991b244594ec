import Mathlib.Data.Finset.Card
import Mathlib.Data.List.Perm.Basic
import MulticoreRtos.Scheduler

/-!
What the queues of the scheduler hold. `Queues` says where each thread is and in
which order; `Rep` relates it to the links, states and counters of the kernel.
Each list operation of the kernel has one lemma here that follows it through.
-/

namespace MulticoreRtos.Scheduler

open LinkedList
open Heap (null)

inductive Place (Sem : Type) where
  | gone
  | ready (priority : Nat)
  | asleep
  | waiting (sem : Sem)
  deriving DecidableEq

/-- `members` lists the threads of a place from its root on. `running` is the
thread the scheduler has given to a core, `null` for the idle thread or none. -/
structure Queues (Sem : Type) where
  place : Nat → Place Sem
  members : Place Sem → List Nat
  running : Core → Nat

structure Slots where
  addresses : Finset Nat
  present : null ∉ addresses
  few : addresses.card ≤ walkFuel

variable {Sem : Type} {slots : Slots} {k k' : Shared Sem} {q : Queues Sem}

structure Listed (slots : Slots) (q : Queues Sem) : Prop where
  members : ∀ t spot, spot ≠ .gone → (t ∈ q.members spot ↔ q.place t = spot)
  distinct : ∀ spot, (q.members spot).Nodup
  inside : ∀ t, q.place t ≠ .gone → t ∈ slots.addresses
  current : ∀ c, q.running c ≠ null → ∃ p, q.place (q.running c) = .ready p
  apart : ∀ c d, q.running c ≠ null → q.running c = q.running d → c = d

def rootOf (k : Shared Sem) : Place Sem → Nat
  | .gone => null
  | .ready p => k.threadSchedule p
  | .asleep => k.sleepScheduleRoot
  | .waiting s => k.bthreadsRoot s

/-- The links of a list: a ring for a level, a chain for all else. -/
def Links (k : Shared Sem) (root : Nat) : Place Sem → List Nat → Prop
  | .gone, _ => True
  | .ready _, nodes => Ring null k.nextTcb k.prevTcb root nodes
  | .asleep, nodes => Chain null k.nextTcb root nodes
  | .waiting _, nodes => Chain null k.nextTcb root nodes

def Joined (k : Shared Sem) (q : Queues Sem) : Prop :=
  ∀ spot, Links k (rootOf k spot) spot (q.members spot)

def Fits (k : Shared Sem) (running : Core → Nat) (t : Nat) : Place Sem → Prop
  | .gone => True
  | .ready p => k.priority t = p ∧ p < priorityLvlCnt ∧
      (k.state t = .running ∨ k.state t = .active) ∧
      (k.state t = .running ↔ ∃ c, running c = t)
  | .asleep => k.priority t < priorityLvlCnt ∧ k.state t = .sleeping
  | .waiting _ => k.priority t < priorityLvlCnt ∧ k.state t = .blocked

def Stated (k : Shared Sem) (q : Queues Sem) : Prop := ∀ t, Fits k q.running t (q.place t)

def inState (state : Nat → ThreadState) (wanted : ThreadState) (threads : List Nat) : Nat :=
  threads.countP fun t => state t = wanted

structure LevelCount (k : Shared Sem) (p : Nat) (nodes : List Nat) : Prop where
  active : k.activePriorityCount p = inState k.state .active nodes
  running : k.runningPriorityCount p = inState k.state .running nodes

def Counted (k : Shared Sem) (q : Queues Sem) : Prop :=
  ∀ p < priorityLvlCnt, LevelCount k p (q.members (.ready p))

structure Rep (slots : Slots) (k : Shared Sem) (q : Queues Sem) : Prop where
  listed : Listed slots q
  joined : Joined k q
  stated : Stated k q
  counted : Counted k q

/-! Bounds. -/

theorem Slots.ne_null (slots : Slots) {t : Nat} (inside : t ∈ slots.addresses) : t ≠ null := by
  rintro rfl
  exact slots.present inside

theorem Listed.length_le (listed : Listed slots q) (spot : Place Sem) (linked : spot ≠ .gone) :
    (q.members spot).length ≤ walkFuel := by
  rw [← List.toFinset_card_of_nodup (listed.distinct spot)]
  apply le_trans (Finset.card_le_card _) slots.few
  intro t member
  apply listed.inside t
  rw [(listed.members t spot linked).mp (List.mem_toFinset.mp member)]
  exact linked

theorem Listed.ne_null (listed : Listed slots q) (t : Nat) (live : q.place t ≠ .gone) : t ≠ null :=
  slots.ne_null (listed.inside t live)

theorem Listed.present (listed : Listed slots q) {t : Nat} {spot : Place Sem}
    (linked : spot ≠ .gone) (member : t ∈ q.members spot) : t ≠ null := by
  apply listed.ne_null
  rwa [(listed.members t spot linked).mp member]

theorem Rep.fits (rep : Rep slots k q) {t : Nat} {spot : Place Sem} (here : q.place t = spot) :
    Fits k q.running t spot :=
  here ▸ rep.stated t

theorem Rep.ready_members (rep : Rep slots k q) {p t : Nat} :
    t ∈ q.members (.ready p) ↔ q.place t = .ready p :=
  rep.listed.members t _ (by simp)

theorem Listed.not_running (listed : Listed slots q) {t : Nat} (away : ∀ p, q.place t ≠ .ready p)
    (present : t ≠ null) (c : Core) : q.running c ≠ t := by
  rintro rfl
  obtain ⟨p, here⟩ := listed.current c present
  exact away p here

theorem inState_le (state : Nat → ThreadState) (wanted : ThreadState) (threads : List Nat) :
    inState state wanted threads ≤ threads.length :=
  List.countP_le_length

theorem increment_small {count : Nat} (small : count ≤ walkFuel) : increment count = count + 1 := by
  have bound : walkFuel = 2047 := by decide
  exact Nat.mod_eq_of_lt (by omega)

theorem decrement_small {count : Nat} (small : count ≤ walkFuel) (positive : 1 ≤ count) :
    decrement count = count - 1 := by
  have bound : walkFuel = 2047 := by decide
  unfold decrement
  omega

/-! Counting threads under a change of one state. -/

section InState
variable {state : Nat → ThreadState} {wanted : ThreadState} {t : Nat} {threads : List Nat}

theorem inState_congr {state' : Nat → ThreadState} (same : ∀ x ∈ threads, state' x = state x) :
    inState state' wanted threads = inState state wanted threads := by
  apply List.countP_congr
  intro x member
  rw [same x member]

theorem inState_outside (state : Nat → ThreadState) (wanted target : ThreadState)
    (outside : t ∉ threads) :
    inState (Function.update state t target) wanted threads = inState state wanted threads := by
  apply inState_congr
  intro x member
  apply Function.update_of_ne
  rintro rfl
  exact outside member

theorem inState_inside (state : Nat → ThreadState) (wanted target : ThreadState)
    (distinct : threads.Nodup) (member : t ∈ threads) :
    inState (Function.update state t target) wanted threads + (if state t = wanted then 1 else 0) =
      inState state wanted threads + (if target = wanted then 1 else 0) := by
  induction threads with
  | nil => exact nomatch member
  | cons x rest ih =>
      obtain ⟨fresh, rest_distinct⟩ := List.nodup_cons.mp distinct
      simp only [inState, List.countP_cons, decide_eq_true_eq] at ih ⊢
      rcases List.mem_cons.mp member with rfl | later
      · have kept := inState_outside state wanted target fresh
        simp only [inState] at kept
        rw [kept, Function.update_self]
        omega
      · have other : x ≠ t := fun same => fresh (same ▸ later)
        have inner := ih rest_distinct later
        rw [Function.update_of_ne other]
        omega

theorem inState_cons (x : Nat) :
    inState state wanted (x :: threads) =
      inState state wanted threads + (if state x = wanted then 1 else 0) := by
  simp [inState, List.countP_cons]

theorem inState_perm {others : List Nat} (same : threads.Perm others) :
    inState state wanted threads = inState state wanted others :=
  same.countP_eq _

theorem inState_pos (wanted : ThreadState) (member : t ∈ threads) (here : state t = wanted) :
    1 ≤ inState state wanted threads :=
  List.countP_pos_iff.mpr ⟨t, member, by simpa using here⟩

end InState

/-! A thread enters or leaves one list. -/

section Moves
variable [DecidableEq Sem]

def Queues.enter (q : Queues Sem) (t : Nat) (spot : Place Sem) (nodes : List Nat) : Queues Sem :=
  { q with
    place := Function.update q.place t spot
    members := Function.update q.members spot nodes }

@[simp] theorem enter_running (q : Queues Sem) (t : Nat) (spot : Place Sem)
    (nodes : List Nat) : (q.enter t spot nodes).running = q.running := rfl

def Queues.leave (q : Queues Sem) (t : Nat) (nodes : List Nat) : Queues Sem where
  place := Function.update q.place t .gone
  members := Function.update q.members (q.place t) nodes
  running c := if q.running c = t then null else q.running c

theorem Listed.enter (listed : Listed slots q) {t : Nat} {spot : Place Sem} {nodes : List Nat}
    (linked : spot ≠ .gone) (gone : q.place t = .gone) (inside : t ∈ slots.addresses)
    (same : nodes.Perm (t :: q.members spot)) : Listed slots (q.enter t spot nodes) := by
  have fresh (other : Place Sem) (live : other ≠ .gone) : t ∉ q.members other := by
    rw [listed.members t other live, gone]
    exact live.symm
  constructor
  · intro x other live
    by_cases this : x = t
    · subst this
      by_cases here : other = spot
      · subst here
        simp [Queues.enter, same.mem_iff]
      · simp [Queues.enter, Function.update_of_ne here, fresh other live, Ne.symm here]
    · by_cases here : other = spot
      · subst here
        simp [Queues.enter, same.mem_iff, this, listed.members x other live]
      · simp [Queues.enter, Function.update_of_ne here, this, listed.members x other live]
  · intro other
    by_cases here : other = spot
    · subst here
      simpa [Queues.enter] using
        same.nodup_iff.mpr (List.nodup_cons.mpr ⟨fresh other linked, listed.distinct other⟩)
    · simpa [Queues.enter, Function.update_of_ne here] using listed.distinct other
  · intro x live
    by_cases this : x = t
    · subst this
      exact inside
    · exact listed.inside x (by simpa [Queues.enter, this] using live)
  · intro c busy
    obtain ⟨p, here⟩ := listed.current c busy
    have other := listed.not_running (fun p => by simp [gone]) (slots.ne_null inside) c
    exact ⟨p, by simpa [Queues.enter, other] using here⟩
  · exact listed.apart

theorem Listed.leave (listed : Listed slots q) {t : Nat} {nodes : List Nat}
    (live : q.place t ≠ .gone) (same : (t :: nodes).Perm (q.members (q.place t))) :
    Listed slots (q.leave t nodes) := by
  obtain ⟨fresh, nodes_distinct⟩ :=
    List.nodup_cons.mp (same.nodup_iff.mpr (listed.distinct (q.place t)))
  constructor
  · intro x other linked
    by_cases this : x = t
    · subst this
      by_cases here : other = q.place x
      · subst here
        simp [Queues.leave, fresh, linked.symm]
      · simp [Queues.leave, Function.update_of_ne here, listed.members x other linked, linked.symm,
          Ne.symm here]
    · by_cases here : other = q.place t
      · subst here
        have member := same.mem_iff (a := x)
        simp only [List.mem_cons, this, false_or] at member
        simp [Queues.leave, this, member, listed.members x _ linked]
      · simp [Queues.leave, Function.update_of_ne here, this, listed.members x other linked]
  · intro other
    by_cases here : other = q.place t
    · subst here
      simpa [Queues.leave] using nodes_distinct
    · simpa [Queues.leave, Function.update_of_ne here] using listed.distinct other
  · intro x still
    by_cases this : x = t
    · subst this
      exact absurd (Function.update_self _ _ _) still
    · exact listed.inside x (by simpa [Queues.leave, this] using still)
  · intro c busy
    by_cases this : q.running c = t
    · exact absurd (if_pos this) busy
    · simp only [Queues.leave, if_neg this] at busy ⊢
      obtain ⟨p, here⟩ := listed.current c busy
      exact ⟨p, by rwa [Function.update_of_ne this]⟩
  · intro c d busy both
    by_cases this : q.running c = t
    · exact absurd (if_pos this) busy
    · by_cases that : q.running d = t
      · simp only [Queues.leave, if_neg this, if_pos that] at busy both
        exact absurd both busy
      · simp only [Queues.leave, if_neg this, if_neg that] at busy both
        exact listed.apart c d busy both

def KeepsBut (k k' : Shared Sem) (q : Queues Sem) (spot : Place Sem) : Prop :=
  ∀ x, q.place x ≠ .gone → q.place x ≠ spot →
    k'.nextTcb x = k.nextTcb x ∧ k'.prevTcb x = k.prevTcb x

omit [DecidableEq Sem] in
theorem Joined.kept (listed : Listed slots q) (joined : Joined k q) (spot : Place Sem)
    (kept : KeepsBut k k' q spot) (other : Place Sem) (apart : other ≠ spot)
    (roots : rootOf k' other = rootOf k other) :
    Links k' (rootOf k' other) other (q.members other) := by
  rw [roots]
  have links := joined other
  cases other with
  | gone => trivial
  | ready p =>
      apply Ring.congr _ links
      intro x member
      have here := (listed.members x (.ready p) (by simp)).mp member
      exact kept x (by simp [here]) (by rwa [here])
  | asleep =>
      apply Chain.congr _ _ links
      intro x member
      have here := (listed.members x .asleep (by simp)).mp member
      exact (kept x (by simp [here]) (by rwa [here])).1
  | waiting s =>
      apply Chain.congr _ _ links
      intro x member
      have here := (listed.members x (.waiting s) (by simp)).mp member
      exact (kept x (by simp [here]) (by rwa [here])).1

theorem Joined.change (listed : Listed slots q) (joined : Joined k q) (spot : Place Sem)
    {nodes : List Nat} (kept : KeepsBut k k' q spot)
    (links : Links k' (rootOf k' spot) spot nodes)
    (roots : ∀ other, other ≠ spot → rootOf k' other = rootOf k other) (other : Place Sem) :
    Links k' (rootOf k' other) other (Function.update q.members spot nodes other) := by
  by_cases here : other = spot
  · subst here
    rw [Function.update_self]
    exact links
  · rw [Function.update_of_ne here]
    exact joined.kept listed spot kept other here (roots other here)

omit [DecidableEq Sem] in
theorem Fits.congr {running running' : Core → Nat} {t : Nat} {spot : Place Sem}
    (fits : Fits k running t spot) (priority : k'.priority t = k.priority t)
    (state : k'.state t = k.state t) (runs : (∃ c, running' c = t) ↔ ∃ c, running c = t) :
    Fits k' running' t spot := by
  cases spot with
  | gone => trivial
  | ready p => rwa [Fits, priority, state, runs]
  | asleep => rwa [Fits, priority, state]
  | waiting s => rwa [Fits, priority, state]

omit [DecidableEq Sem] in
theorem Fits.bounded {running : Core → Nat} {t : Nat} {spot : Place Sem}
    (fits : Fits k running t spot) (live : spot ≠ .gone) : k.priority t < priorityLvlCnt := by
  cases spot with
  | gone => exact absurd rfl live
  | ready p => exact fits.1 ▸ fits.2.1
  | asleep => exact fits.1
  | waiting s => exact fits.1

omit [DecidableEq Sem] in
theorem Stated.change (stated : Stated k q) {t : Nat} {spot : Place Sem} {running' : Core → Nat}
    (fits : Fits k' running' t spot)
    (others : ∀ x, x ≠ t → q.place x ≠ .gone → k'.priority x = k.priority x ∧
      k'.state x = k.state x ∧ ((∃ c, running' c = x) ↔ ∃ c, q.running c = x)) (x : Nat) :
    Fits k' running' x (Function.update q.place t spot x) := by
  by_cases this : x = t
  · subst this
    rwa [Function.update_self]
  · rw [Function.update_of_ne this]
    by_cases live : q.place x = .gone
    · rw [live]
      trivial
    · obtain ⟨priority, state, runs⟩ := others x this live
      exact (stated x).congr priority state runs

omit [DecidableEq Sem] in
theorem LevelCount.congr {p : Nat} {nodes : List Nat} (count : LevelCount k p nodes)
    (active : k'.activePriorityCount p = k.activePriorityCount p)
    (running : k'.runningPriorityCount p = k.runningPriorityCount p)
    (same : ∀ x ∈ nodes, k'.state x = k.state x) : LevelCount k' p nodes :=
  ⟨by rw [active, count.active, inState_congr same],
    by rw [running, count.running, inState_congr same]⟩

omit [DecidableEq Sem] in
theorem LevelCount.perm {p : Nat} {nodes others : List Nat} (count : LevelCount k p nodes)
    (same : nodes.Perm others) : LevelCount k p others :=
  ⟨by rw [count.active, inState_perm same], by rw [count.running, inState_perm same]⟩

theorem Counted.change (counted : Counted k q) (spot : Place Sem) {nodes : List Nat}
    (level : ∀ p < priorityLvlCnt, spot = .ready p → LevelCount k' p nodes)
    (others : ∀ p < priorityLvlCnt, spot ≠ .ready p →
      k'.activePriorityCount p = k.activePriorityCount p ∧
      k'.runningPriorityCount p = k.runningPriorityCount p ∧
      ∀ x ∈ q.members (.ready p), k'.state x = k.state x) (p : Nat) (below : p < priorityLvlCnt) :
    LevelCount k' p (Function.update q.members spot nodes (.ready p)) := by
  by_cases here : spot = .ready p
  · rw [here, Function.update_self]
    exact level p below here
  · rw [Function.update_of_ne (Ne.symm here)]
    obtain ⟨active, running, same⟩ := others p below here
    exact (counted p below).congr active running same

theorem update_apart {f : Nat → Nat} {a b u v y : Nat} (first : y ≠ a) (second : y ≠ b) :
    Function.update (Function.update f a u) b v y = f y := by
  rw [Function.update_of_ne second, Function.update_of_ne first]

/-! `enqueue_thread` -/

omit [DecidableEq Sem] in
theorem enqueue_links (listed : Listed slots q) (joined : Joined k q) {t : Nat}
    (gone : q.place t = .gone) (present : t ≠ null) :
    KeepsBut k (enqueueThread k t) q (.ready (k.priority t)) ∧
      Links (enqueueThread k t) t (.ready (k.priority t))
        (t :: q.members (.ready (k.priority t))) := by
  have ring : Ring null k.nextTcb k.prevTcb (k.threadSchedule (k.priority t))
      (q.members (.ready (k.priority t))) := joined (.ready (k.priority t))
  have other (x : Nat) (live : q.place x ≠ .gone) : x ≠ t := by
    rintro rfl
    exact live gone
  by_cases empty : k.threadSchedule (k.priority t) = null
  · rw [ring.null_iff.mp empty]
    simp only [enqueueThread, empty, if_true]
    constructor
    · intro x live _
      exact ⟨Function.update_of_ne (other x live) _ _, Function.update_of_ne (other x live) _ _⟩
    · exact Ring.single present (Function.update_self _ _ _) (Function.update_self _ _ _)
  · simp only [enqueueThread, empty, if_false]
    cases nodes : q.members (.ready (k.priority t)) with
    | nil =>
        rw [nodes] at ring
        exact absurd ring empty
    | cons x rest =>
        have fresh : t ∉ x :: rest := by
          rw [← nodes, listed.members t _ (by simp), gone]
          simp
        have distinct := listed.distinct (.ready (k.priority t))
        rw [nodes] at ring distinct
        constructor
        · intro y live outside
          have away (z : Nat) (member : z ∈ x :: rest) : y ≠ z := by
            rintro rfl
            rw [← nodes] at member
            exact outside ((listed.members y _ (by simp)).mp member)
          have root_member : k.threadSchedule (k.priority t) ∈ x :: rest := by
            rw [ring.1]
            exact List.mem_cons_self
          have last_member := ring.prev_root_mem
          exact ⟨update_apart (other y live) (away _ last_member),
            update_apart (other y live) (away _ root_member)⟩
        · exact ring.push distinct fresh present

omit [DecidableEq Sem] in
@[simp] theorem enqueueThread_state (k : Shared Sem) (t : Nat) :
    (enqueueThread k t).state = Function.update k.state t .active := rfl

omit [DecidableEq Sem] in
@[simp] theorem enqueueThread_priority (k : Shared Sem) (t : Nat) :
    (enqueueThread k t).priority = k.priority := by
  by_cases empty : k.threadSchedule (k.priority t) = null <;> simp [enqueueThread, empty]

omit [DecidableEq Sem] in
@[simp] theorem enqueueThread_resumeTick (k : Shared Sem) (t : Nat) :
    (enqueueThread k t).resumeTick = k.resumeTick := by
  by_cases empty : k.threadSchedule (k.priority t) = null <;> simp [enqueueThread, empty]

omit [DecidableEq Sem] in
theorem enqueueThread_counts (k : Shared Sem) (t : Nat) :
    (enqueueThread k t).activePriorityCount = Function.update k.activePriorityCount (k.priority t)
        (increment (k.activePriorityCount (k.priority t))) ∧
      (enqueueThread k t).runningPriorityCount = k.runningPriorityCount := by
  by_cases empty : k.threadSchedule (k.priority t) = null <;> simp [enqueueThread, empty]

omit [DecidableEq Sem] in
theorem enqueueThread_roots (k : Shared Sem) (t : Nat) :
    rootOf (enqueueThread k t) (.ready (k.priority t)) = t ∧
      ∀ other, other ≠ .ready (k.priority t) → rootOf (enqueueThread k t) other = rootOf k other := by
  constructor
  · exact Function.update_self _ _ _
  · intro other apart
    cases other with
    | gone => rfl
    | ready p => exact Function.update_of_ne (fun same => apart (by rw [same])) _ _
    | asleep => by_cases empty : k.threadSchedule (k.priority t) = null <;>
        simp [enqueueThread, rootOf, empty]
    | waiting s => by_cases empty : k.threadSchedule (k.priority t) = null <;>
        simp [enqueueThread, rootOf, empty]

theorem enqueue_rep (rep : Rep slots k q) {t : Nat} (gone : q.place t = .gone)
    (inside : t ∈ slots.addresses) (bounded : k.priority t < priorityLvlCnt) :
    Rep slots (enqueueThread k t)
      (q.enter t (.ready (k.priority t)) (t :: q.members (.ready (k.priority t)))) := by
  have present := slots.ne_null inside
  have fresh (p : Nat) : t ∉ q.members (.ready p) := by
    rw [rep.listed.members t _ (by simp), gone]
    simp
  obtain ⟨kept, links⟩ := enqueue_links rep.listed rep.joined gone present
  obtain ⟨actives, runners⟩ := enqueueThread_counts k t
  constructor
  · exact rep.listed.enter (by simp) gone inside (List.Perm.refl _)
  · obtain ⟨root, roots⟩ := enqueueThread_roots k t
    exact rep.joined.change rep.listed _ kept (root.symm ▸ links) roots
  · apply rep.stated.change
    · refine ⟨by simp, bounded, Or.inr (by simp), ?_⟩
      simp [rep.listed.not_running (fun p => by simp [gone]) present]
    · intro x other _
      simp [other]
  · apply rep.counted.change
    · rintro p below same
      obtain rfl : k.priority t = p := by simpa using same
      have count := rep.counted _ below
      have length := rep.listed.length_le (.ready (k.priority t)) (by simp)
      constructor
      · have small := inState_le k.state .active (q.members (.ready (k.priority t)))
        rw [actives, Function.update_self, count.active, increment_small (small.trans length)]
        simp [inState_cons, inState_outside, fresh]
      · rw [runners, count.running]
        simp [inState_cons, inState_outside, fresh]
    · rintro p below other
      have apart : p ≠ k.priority t := by
        rintro rfl
        exact other rfl
      refine ⟨by rw [actives, Function.update_of_ne apart], by rw [runners], ?_⟩
      intro x member
      rw [enqueueThread_state, Function.update_of_ne]
      rintro rfl
      exact fresh p member

/-! The head of the sleep queue or of a blocked list leaves. -/

theorem leave_runs (listed : Listed slots q) {t x : Nat} (nodes : List Nat) (other : x ≠ t)
    (live : q.place x ≠ .gone) :
    (∃ c, (q.leave t nodes).running c = x) ↔ ∃ c, q.running c = x := by
  have present := listed.ne_null x live
  constructor
  · rintro ⟨c, runs⟩
    by_cases this : q.running c = t
    · exact absurd (runs.symm.trans (if_pos this)) present
    · exact ⟨c, (if_neg this).symm.trans runs⟩
  · rintro ⟨c, rfl⟩
    exact ⟨c, if_neg other⟩

theorem pop_rep (rep : Rep slots k q) {t : Nat} {rest : List Nat} {spot : Place Sem}
    (nodes : q.members spot = t :: rest) (chained : spot = .asleep ∨ ∃ s, spot = .waiting s)
    (links : k'.nextTcb = k.nextTcb ∧ k'.prevTcb = k.prevTcb)
    (fields : k'.priority = k.priority ∧ k'.state = k.state)
    (counts : k'.activePriorityCount = k.activePriorityCount ∧
      k'.runningPriorityCount = k.runningPriorityCount)
    (root : rootOf k' spot = k.nextTcb t)
    (roots : ∀ other, other ≠ spot → rootOf k' other = rootOf k other) :
    Rep slots k' (q.leave t rest) := by
  have linked : spot ≠ .gone := by rcases chained with rfl | ⟨s, rfl⟩ <;> simp
  have here : q.place t = spot := (rep.listed.members t spot linked).mp (by simp [nodes])
  have live : q.place t ≠ .gone := by rwa [here]
  constructor
  · exact rep.listed.leave live (by rw [here, nodes])
  · intro other
    change Links k' _ other (Function.update q.members (q.place t) rest other)
    rw [here]
    apply rep.joined.change rep.listed
    · intro x _ _
      exact ⟨congrFun links.1 x, congrFun links.2 x⟩
    · have chain := rep.joined spot
      rw [nodes] at chain
      rw [root]
      rcases chained with rfl | ⟨s, rfl⟩
      · exact chain.2.2.congr rest fun x _ => congrFun links.1 x
      · exact chain.2.2.congr rest fun x _ => congrFun links.1 x
    · exact roots
  · apply rep.stated.change
    · trivial
    · intro x other live
      exact ⟨congrFun fields.1 x, congrFun fields.2 x, leave_runs rep.listed rest other live⟩
  · intro p below
    change LevelCount k' p (Function.update q.members (q.place t) rest (.ready p))
    have apart : Place.ready p ≠ q.place t := by
      rw [here]
      rcases chained with rfl | ⟨s, rfl⟩ <;> simp
    rw [Function.update_of_ne apart]
    exact (rep.counted p below).congr (congrFun counts.1 p) (congrFun counts.2 p)
      fun x _ => congrFun fields.2 x

/-! `dequeue_thread` of a thread that runs -/

omit [DecidableEq Sem] in
theorem unlinkThread_next (k : Shared Sem) (t : Nat) : (unlinkThread k t).nextTcb t = null := by
  unfold unlinkThread
  split <;> simp

structure Untouched (k k' : Shared Sem) : Prop where
  state : k'.state = k.state
  priority : k'.priority = k.priority
  resumeTick : k'.resumeTick = k.resumeTick
  active : k'.activePriorityCount = k.activePriorityCount
  sleepers : k'.sleepScheduleRoot = k.sleepScheduleRoot
  waiters : k'.bthreadsRoot = k.bthreadsRoot

omit [DecidableEq Sem] in
theorem dequeueThread_untouched (k : Shared Sem) (t : Nat) : Untouched k (dequeueThread k t) := by
  have dropped : Untouched k (dropRunning k t) := by
    unfold dropRunning
    split <;> exact ⟨rfl, rfl, rfl, rfl, rfl, rfl⟩
  unfold dequeueThread unlinkThread
  split
  · exact ⟨dropped.1, dropped.2, dropped.3, dropped.4, dropped.5, dropped.6⟩
  · exact ⟨dropped.1, dropped.2, dropped.3, dropped.4, dropped.5, dropped.6⟩

omit [DecidableEq Sem] in
theorem dequeueThread_runners (k : Shared Sem) (t : Nat) (runs : k.state t = .running) :
    (dequeueThread k t).runningPriorityCount = Function.update k.runningPriorityCount
      (k.priority t) (decrement (k.runningPriorityCount (k.priority t))) := by
  rw [dequeueThread, dropRunning, if_pos runs, unlinkThread]
  split <;> rfl

omit [DecidableEq Sem] in
theorem dequeueThread_roots (k : Shared Sem) (t p : Nat) (other : p ≠ k.priority t) :
    (dequeueThread k t).threadSchedule p = k.threadSchedule p := by
  have dropped : (dropRunning k t).threadSchedule = k.threadSchedule ∧
      (dropRunning k t).priority = k.priority := by
    unfold dropRunning
    split <;> exact ⟨rfl, rfl⟩
  unfold dequeueThread unlinkThread
  rw [dropped.1, dropped.2]
  split
  · exact Function.update_of_ne other _ _
  · exact Function.update_of_ne other _ _

omit [DecidableEq Sem] in
theorem level_length (rep : Rep slots k q) (p : Nat) (below : p < priorityLvlCnt) :
    (q.members (.ready p)).length = k.activePriorityCount p + k.runningPriorityCount p := by
  rw [(rep.counted p below).active, (rep.counted p below).running, inState, inState,
    List.length_eq_countP_add_countP fun t => decide (k.state t = .active)]
  congr 1
  apply List.countP_congr
  intro t member
  have here := rep.ready_members.mp member
  have fits := rep.fits here
  rcases fits.2.2.1 with runs | waits
  · simp [runs]
  · simp [waits]

omit [DecidableEq Sem] in
/-- The test of `unlink`: the counters tell a ring of one from a longer one. -/
theorem emptied_iff (rep : Rep slots k q) {t : Nat} (here : q.place t = .ready (k.priority t))
    (runs : k.state t = .running) :
    (k.activePriorityCount (k.priority t) = 0 ∧
        decrement (k.runningPriorityCount (k.priority t)) = 0) ↔
      (q.members (.ready (k.priority t))).length = 1 := by
  have fits := rep.fits here
  have below := fits.2.1
  have member := rep.ready_members.mpr here
  have total := level_length rep _ below
  have one := inState_pos .running member runs
  rw [← (rep.counted _ below).running] at one
  have small := rep.listed.length_le (.ready (k.priority t)) (by simp)
  have fewer := decrement_small (by omega) one
  omega

omit [DecidableEq Sem] in
theorem turned_ring (rep : Rep slots k q) {p t : Nat} {before after : List Nat}
    (split : q.members (.ready p) = before ++ t :: after) :
    Ring null k.nextTcb k.prevTcb t (t :: after ++ before) ∧ (t :: after ++ before).Nodup ∧
      ∀ x ∈ t :: after ++ before, q.place x = .ready p := by
  have ring : Ring null k.nextTcb k.prevTcb (k.threadSchedule p) (q.members (.ready p)) :=
    rep.joined (.ready p)
  have distinct := rep.listed.distinct (.ready p)
  have linked : Place.ready p ≠ (.gone : Place Sem) := by simp
  rw [split] at ring distinct
  refine ⟨ring.rotate before after ?_, List.perm_append_comm.nodup_iff.mp distinct, ?_⟩
  · exact fun x member => rep.listed.present linked (split ▸ member)
  · intro x member
    rw [← rep.listed.members x _ linked, split]
    exact List.perm_append_comm.mem_iff.mp member

omit [DecidableEq Sem] in
theorem dequeue_links (rep : Rep slots k q) {t : Nat} (here : q.place t = .ready (k.priority t))
    (runs : k.state t = .running) :
    KeepsBut k (dequeueThread k t) q (.ready (k.priority t)) ∧
      Links (dequeueThread k t) (rootOf (dequeueThread k t) (.ready (k.priority t)))
        (.ready (k.priority t)) (unlink t (q.members (.ready (k.priority t)))) := by
  have member := rep.ready_members.mpr here
  obtain ⟨before, after, split, rest⟩ := unlink_split member
  obtain ⟨rotated, distinct, placed⟩ := turned_ring rep split
  have outside (x y : Nat) (elsewhere : q.place x ≠ .ready (k.priority t))
      (inside : y ∈ t :: after ++ before) : x ≠ y := by
    rintro rfl
    exact elsewhere (placed x inside)
  have total : (q.members (.ready (k.priority t))).length = (after ++ before).length + 1 := by
    rw [split]
    simp only [List.length_append, List.length_cons]
    omega
  rw [rest]
  cases others : after ++ before with
  | nil =>
      -- the counters say that no other thread is left: the root becomes `NULL`
      have alone := (emptied_iff rep here runs).mpr (by rw [total, others, List.length_nil])
      rw [dequeueThread, dropRunning, if_pos runs, unlinkThread, if_pos (by simpa using alone)]
      constructor
      · intro x _ elsewhere
        exact ⟨Function.update_of_ne (outside x t elsewhere (by simp)) _ _, rfl⟩
      · exact Function.update_self _ _ _
  | cons y more =>
      -- the ring, turned so that `t` is its root, loses the root
      have several := mt (emptied_iff rep here runs).mp
        (by rw [total, others, List.length_cons]; omega)
      simp only [List.cons_append] at rotated distinct outside placed
      rw [others] at rotated distinct outside placed
      have y_present : y ≠ null :=
        rep.listed.ne_null y (by rw [placed y (by simp)]; simp)
      obtain ⟨first, last_other, removed⟩ := rotated.remove distinct y_present
      have last_member := rotated.prev_root_mem
      rw [dequeueThread, dropRunning, if_pos runs, unlinkThread, if_neg (by simpa using several)]
      constructor
      · intro x _ elsewhere
        constructor
        · exact update_apart (outside x _ elsewhere last_member) (outside x t elsewhere (by simp))
        · exact Function.update_of_ne
            (outside x _ elsewhere (by rw [first]; simp)) _ _
      · have fresh : t ∉ y :: more := (List.nodup_cons.mp distinct).1
        simp only [Links, rootOf, Function.update_self, first] at removed ⊢
        apply removed.congr
        intro x listed
        constructor
        · apply Function.update_of_ne
          rintro rfl
          exact fresh listed
        · rfl

/-- The thread leaves its ring, and its core has no thread until the next call
of `schedule()`. -/
theorem dequeue_rep (rep : Rep slots k q) {t : Nat} (here : q.place t = .ready (k.priority t))
    (runs : k.state t = .running) :
    Rep slots (dequeueThread k t)
      (q.leave t (unlink t (q.members (.ready (k.priority t))))) := by
  have member := rep.ready_members.mpr here
  have live : q.place t ≠ .gone := by simp [here]
  have perm := unlink_perm member
  obtain ⟨kept, links⟩ := dequeue_links rep here runs
  have fields := dequeueThread_untouched k t
  have runners := dequeueThread_runners k t runs
  have fresh (p : Nat) (other : p ≠ k.priority t) : t ∉ q.members (.ready p) := by
    rw [rep.listed.members t _ (by simp), here]
    simpa using other.symm
  constructor
  · exact rep.listed.leave live (by rw [here]; exact perm)
  · intro other
    change Links _ _ other (Function.update q.members (q.place t) _ other)
    rw [here]
    apply rep.joined.change rep.listed _ kept links
    intro other apart
    cases other with
    | gone => rfl
    | ready p =>
        exact dequeueThread_roots k t p fun same => apart (by rw [same])
    | asleep => exact fields.sleepers
    | waiting s => exact congrFun fields.waiters s
  · apply rep.stated.change
    · trivial
    · intro x other live
      exact ⟨congrFun fields.priority x, congrFun fields.state x,
        leave_runs rep.listed _ other live⟩
  · intro p below
    change LevelCount _ p (Function.update q.members (q.place t) _ (.ready p))
    rw [here]
    by_cases level : p = k.priority t
    · subst level
      rw [Function.update_self]
      have count := rep.counted _ below
      have one := inState_pos .running member runs
      have small := rep.listed.length_le (.ready (k.priority t)) (by simp)
      have bound := inState_le k.state .running (q.members (.ready (k.priority t)))
      constructor
      · rw [fields.active, fields.state, count.active, ← inState_perm perm, inState_cons, runs]
        simp
      · rw [runners, fields.state, Function.update_self, count.running,
          decrement_small (bound.trans small) one, ← inState_perm perm, inState_cons, runs]
        simp
    · have apart : Place.ready p ≠ (.ready (k.priority t) : Place Sem) := by simpa using level
      rw [Function.update_of_ne apart]
      apply (rep.counted p below).congr
      · rw [fields.active]
      · rw [runners, Function.update_of_ne level]
      · intro x _
        rw [fields.state]

/-! Insertion into the sleep queue or a blocked list -/

omit [DecidableEq Sem] in
theorem insertThread_spec (key : Nat → Nat) {next : Nat → Nat} {root t : Nat} {nodes : List Nat}
    (chain : Chain null next root nodes) (fresh : t ∉ nodes) (present : t ≠ null)
    (distinct : nodes.Nodup) (loose : next t = null) (short : nodes.length ≤ walkFuel) :
    ∃ linked head, insertThread key next root t = some (linked, head) ∧
      Chain null linked head (insertByKey key t nodes) ∧
      ∀ x, x ∉ nodes → x ≠ t → linked x = next x := by
  cases nodes with
  | nil =>
      obtain rfl : root = null := chain
      exact ⟨next, t, if_pos rfl, ⟨rfl, present, loose⟩, fun _ _ _ => rfl⟩
  | cons first rest =>
      have first_present := chain.2.1
      obtain rfl : root = first := chain.1
      by_cases before : key t < key root
      · refine ⟨Function.update next t root, t, ?_, ?_, ?_⟩
        · rw [insertThread, if_neg first_present, if_pos before]
        · rw [insertByKey, List.orderedInsert, if_pos before]
          exact chain.push fresh present
        · exact fun x _ other => Function.update_of_ne other _ _
      · obtain ⟨linked, walked, inserted, kept⟩ := walkInsert_spec key t rest walkFuel root chain
          fresh present distinct loose short before
        refine ⟨linked, root, ?_, inserted, kept⟩
        rw [insertThread, if_neg first_present, if_neg before, walked]
        rfl

theorem insert_rep (rep : Rep slots k q) {t : Nat} {spot : Place Sem} {key : Nat → Nat}
    (gone : q.place t = .gone) (inside : t ∈ slots.addresses) (loose : k.nextTcb t = null)
    (chained : spot = .asleep ∨ ∃ s, spot = .waiting s) (linked : Nat → Nat) (head : Nat)
    (inserted : insertThread key k.nextTcb (rootOf k spot) t = some (linked, head))
    (links : k'.nextTcb = linked ∧ k'.prevTcb = k.prevTcb)
    (fits : Fits k' q.running t spot)
    (fields : k'.priority = k.priority ∧ ∀ x, x ≠ t → k'.state x = k.state x)
    (counts : k'.activePriorityCount = k.activePriorityCount ∧
      k'.runningPriorityCount = k.runningPriorityCount)
    (root : rootOf k' spot = head) (roots : ∀ other, other ≠ spot → rootOf k' other = rootOf k other) :
    Rep slots k' (q.enter t spot (insertByKey key t (q.members spot))) := by
  have live : spot ≠ .gone := by rcases chained with rfl | ⟨s, rfl⟩ <;> simp
  have fresh (other : Place Sem) (listed : other ≠ .gone) : t ∉ q.members other := by
    rw [rep.listed.members t other listed, gone]
    exact listed.symm
  have chain : Chain null k.nextTcb (rootOf k spot) (q.members spot) := by
    rcases chained with rfl | ⟨s, rfl⟩
    · exact rep.joined .asleep
    · exact rep.joined (.waiting s)
  obtain ⟨linked', head', inserted', new_chain, kept⟩ := insertThread_spec key chain
    (fresh spot live) (slots.ne_null inside) (rep.listed.distinct spot) loose
    (rep.listed.length_le spot live)
  obtain ⟨rfl, rfl⟩ : linked' = linked ∧ head' = head := by
    rw [inserted] at inserted'
    simpa [eq_comm] using inserted'
  constructor
  · exact rep.listed.enter live gone inside (List.perm_orderedInsert _ _ _)
  · apply rep.joined.change rep.listed _ _ _ roots
    · intro x still elsewhere
      rw [links.1, links.2]
      constructor
      · apply kept x
        · rwa [rep.listed.members x spot live]
        · rintro rfl
          exact still gone
      · rfl
    · rw [root]
      rcases chained with rfl | ⟨s, rfl⟩ <;> simpa only [Links, links.1] using new_chain
  · apply rep.stated.change fits
    intro x other _
    exact ⟨congrFun fields.1 x, fields.2 x other, Iff.rfl⟩
  · apply rep.counted.change
    · intro p _ same
      rcases chained with rfl | ⟨s, rfl⟩ <;> simp at same
    · intro p _ _
      refine ⟨congrFun counts.1 p, congrFun counts.2 p, fun x member => fields.2 x ?_⟩
      rintro rfl
      exact fresh _ (by simp) member

omit [DecidableEq Sem] in
theorem kept_rep (rep : Rep slots k q)
    (fields : ∀ x, q.place x ≠ .gone → k'.nextTcb x = k.nextTcb x ∧ k'.prevTcb x = k.prevTcb x ∧
      k'.priority x = k.priority x ∧ k'.state x = k.state x)
    (counts : ∀ p < priorityLvlCnt, k'.activePriorityCount p = k.activePriorityCount p ∧
      k'.runningPriorityCount p = k.runningPriorityCount p)
    (roots : ∀ spot, rootOf k' spot = rootOf k spot) : Rep slots k' q := by
  constructor
  · exact rep.listed
  · intro spot
    by_cases linked : spot = .gone
    · subst linked
      trivial
    · apply rep.joined.kept rep.listed .gone _ spot linked (roots spot)
      intro x live _
      obtain ⟨next, prev, _, _⟩ := fields x live
      exact ⟨next, prev⟩
  · intro x
    by_cases live : q.place x = .gone
    · rw [live]
      trivial
    · obtain ⟨_, _, priority, state⟩ := fields x live
      exact (rep.stated x).congr priority state Iff.rfl
  · intro p below
    obtain ⟨active, running⟩ := counts p below
    apply (rep.counted p below).congr active running
    intro x member
    have here := rep.ready_members.mp member
    exact (fields x (by simp [here])).2.2.2

end Moves

end MulticoreRtos.Scheduler
