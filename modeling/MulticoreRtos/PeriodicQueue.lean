import MulticoreRtos.Heap
import MulticoreRtos.LinkedList

/-!
The periodic tasks of `os/periodic.c`. A BGT pointer is its address and every
field of a BGT is a map from addresses; `alarm1` is `TIMER_ALARM1`. Each function
is one section under the `BGSCHEDULER` lock. A task that runs does not touch the
queue: the lock is held while it does. A walk that outlasts `fuel` is `none`.
-/

namespace MulticoreRtos.PeriodicQueue

open LinkedList
open Heap (null)

variable {Task : Type}

structure Background (Task : Type) where
  func : Nat → Task
  next : Nat → Nat
  prev : Nat → Nat
  period : Nat → Nat
  schedTime : Nat → Nat
  root : Nat
  alarm1 : Nat

/-- `get_raw_time() + (period * 1000)` in a 32-bit field. -/
def schedTimeAfter (now period : Nat) : Nat := (now % 2 ^ 64 + period * 1000 % 2 ^ 32) % 2 ^ 32

def insertionPoint (b : Background Task) (bgthread : Nat) : Nat → Nat → Option Nat
  | 0, _ => none
  | fuel + 1, node =>
      if node ≠ b.root ∧ b.schedTime node < b.schedTime bgthread then
        insertionPoint b bgthread fuel (b.next node)
      else some node

def linkBefore (b : Background Task) (bgthread node : Nat) : Background Task :=
  { b with
    next := Function.update (Function.update b.next bgthread node) (b.prev node) bgthread
    prev := Function.update (Function.update b.prev bgthread (b.prev node)) node bgthread }

/-- "remove bgthread from queue" and "reinsert it in the proper location" -/
def resort (fuel : Nat) (b : Background Task) (bgthread : Nat) : Option (Background Task) :=
  let removed : Background Task :=
    { b with
      next := Function.update b.next (b.prev bgthread) (b.next bgthread)
      prev := Function.update b.prev (b.next bgthread) (b.prev bgthread)
      root := b.next bgthread }
  (insertionPoint removed bgthread fuel (removed.next removed.root)).map
    (linkBefore removed bgthread)

def scheduleBackground (fuel : Nat) (b : Background Task) : Option (Task × Background Task) :=
  let bgthread := b.root
  -- the task is called through the root, which is not tested
  if bgthread = null then none
  else
    let due := (b.schedTime bgthread + b.period bgthread * 1000) % 2 ^ 32
    let ran : Background Task := { b with schedTime := Function.update b.schedTime bgthread due }
    let sorted :=
      if ran.schedTime (ran.next bgthread) < ran.schedTime bgthread then resort fuel ran bgthread
      else some ran
    sorted.map fun left => (b.func bgthread, { left with alarm1 := left.schedTime left.root })

def fillIn (b : Background Task) (bgthread : Nat) (task : Task) (period now : Nat) :
    Background Task :=
  { b with
    func := Function.update b.func bgthread task
    period := Function.update b.period bgthread period
    schedTime := Function.update b.schedTime bgthread (schedTimeAfter now period) }

def startQueue (b : Background Task) (bgthread : Nat) : Background Task :=
  { b with
    next := Function.update b.next bgthread bgthread
    prev := Function.update b.prev bgthread bgthread
    root := bgthread
    alarm1 := b.schedTime bgthread }

/-- `add_periodic_task`; `bgthread` is the answer of `malloc` and `now` the
clock. The call returns 1 or, at its end, no value. -/
def addPeriodicTask (fuel : Nat) (b : Background Task) (bgthread : Nat) (task : Task)
    (period now : Nat) : Option (Background Task × Option Nat) :=
  if bgthread = null then some (b, some 1)
  else
    let filled := fillIn b bgthread task period now
    if filled.root = null then
      some (startQueue filled bgthread, none)
    else if filled.schedTime bgthread < filled.schedTime filled.root then
      -- the new task goes in front of the root and `PeriodicScheduleRoot` stays
      let armed : Background Task := { filled with alarm1 := filled.schedTime bgthread }
      some (linkBefore armed bgthread armed.root, none)
    else
      (insertionPoint filled bgthread fuel (filled.next filled.root)).map fun node =>
        (linkBefore filled bgthread node, none)

/-- The tasks from the root on, whatever their due times are. -/
structure Cycle (b : Background Task) (nodes : List Nat) : Prop where
  ring : Ring null b.next b.prev b.root nodes
  distinct : nodes.Nodup
  present : ∀ t ∈ nodes, t ≠ null

/-- The tasks in the order of their due times, from the root on. -/
structure Queue (b : Background Task) (nodes : List Nat) : Prop where
  ring : Ring null b.next b.prev b.root nodes
  distinct : nodes.Nodup
  present : ∀ t ∈ nodes, t ≠ null
  sorted : nodes.Pairwise fun a c => b.schedTime a ≤ b.schedTime c
  armed : nodes ≠ [] → b.alarm1 = b.schedTime b.root

/-- What a caller of `add_periodic_task` relies on. -/
def StaysSorted (fuel : Nat) (b : Background Task) (nodes : List Nat) (bgthread : Nat) (task : Task)
    (period now : Nat) : Prop :=
  ∃ after answer nodes', addPeriodicTask fuel b bgthread task period now = some (after, answer) ∧
    Queue after nodes' ∧ nodes'.Perm (bgthread :: nodes) ∧
    (∀ t ∈ nodes', after.schedTime after.root ≤ after.schedTime t) ∧
    ∀ enough ran later, scheduleBackground enough after = some (ran, later) →
      ran = after.func after.root ∧ after.alarm1 = after.schedTime after.root

variable {b : Background Task} {nodes : List Nat}

theorem Queue.cycle (queue : Queue b nodes) : Cycle b nodes :=
  ⟨queue.ring, queue.distinct, queue.present⟩

theorem Cycle.link {bgthread root : Nat} {before after : List Nat}
    (cycle : Cycle b (root :: before ++ after)) (fresh : bgthread ∉ root :: before ++ after)
    (present : bgthread ≠ null) :
    Cycle (linkBefore b bgthread (after.headD b.root)) (root :: before ++ bgthread :: after) := by
  have same : (root :: before ++ bgthread :: after).Perm (bgthread :: (root :: before ++ after)) :=
    List.perm_middle
  refine ⟨?_, same.nodup_iff.mpr (List.nodup_cons.mpr ⟨fresh, cycle.distinct⟩), ?_⟩
  · cases after with
    | nil =>
        simp only [List.append_nil] at cycle fresh
        exact cycle.ring.append cycle.distinct fresh present
    | cons t after =>
        exact cycle.ring.insert before after cycle.distinct fresh cycle.present present
  · intro t member
    rcases List.mem_cons.mp (same.mem_iff.mp member) with rfl | old
    · exact present
    · exact cycle.present t old

theorem Queue.root_mem (queue : Queue b nodes) (occupied : nodes ≠ []) : b.root ∈ nodes := by
  obtain ⟨x, rest, rfl⟩ := List.exists_cons_of_ne_nil occupied
  rw [queue.ring.1]
  exact List.mem_cons_self

theorem Queue.fillIn {bgthread : Nat} (queue : Queue b nodes) (fresh : bgthread ∉ nodes)
    (task : Task) (period now : Nat) : Queue (fillIn b bgthread task period now) nodes := by
  have kept : ∀ t ∈ nodes, (PeriodicQueue.fillIn b bgthread task period now).schedTime t =
      b.schedTime t := by
    intro t member
    exact Function.update_of_ne (ne_of_mem_of_not_mem member fresh) _ _
  refine ⟨queue.ring, queue.distinct, queue.present, ?_, ?_⟩
  · refine queue.sorted.imp_of_mem ?_
    intro a c a_member c_member ordered
    rw [kept a a_member, kept c c_member]
    exact ordered
  · intro some_task
    exact (queue.armed some_task).trans (kept _ (queue.root_mem some_task)).symm

theorem Queue.root_least (queue : Queue b nodes) :
    ∀ t ∈ nodes, b.schedTime b.root ≤ b.schedTime t := by
  intro t member
  cases nodes with
  | nil => exact nomatch member
  | cons root rest =>
      rw [queue.ring.1]
      rcases List.mem_cons.mp member with rfl | behind
      · exact le_refl _
      · exact (List.pairwise_cons.mp queue.sorted).1 t behind

/-- The walk from behind `a` on stops at the first task that is not due before
the new one, or at the root behind the last. -/
theorem insertionPoint_spec (b : Background Task) (bgthread : Nat) (rest : List Nat) :
    ∀ (fuel a : Nat), List.IsChain (Linked b.next b.prev) (a :: rest ++ [b.root]) →
      b.root ∉ rest → rest.length < fuel →
      ∃ before after, rest = before ++ after ∧
        insertionPoint b bgthread fuel (b.next a) = some (after.headD b.root) ∧
        (∀ t ∈ before, b.schedTime t < b.schedTime bgthread) ∧
        (∀ t ∈ after.head?, b.schedTime bgthread ≤ b.schedTime t) := by
  induction rest with
  | nil =>
      intro fuel a chain _ enough
      obtain ⟨more, rfl⟩ := Nat.exists_eq_succ_of_ne_zero (Nat.ne_of_gt enough)
      have back : b.next a = b.root := (List.isChain_cons_cons.mp chain).1.1
      refine ⟨[], [], rfl, ?_, by simp, by simp⟩
      simp [insertionPoint, back]
  | cons node rest ih =>
      intro fuel a chain foreign enough
      obtain ⟨more, rfl⟩ := Nat.exists_eq_succ_of_ne_zero (Nat.ne_of_gt (Nat.zero_lt_of_lt enough))
      obtain ⟨link, tail⟩ := List.isChain_cons_cons.mp chain
      obtain ⟨other, rest_foreign⟩ := not_or.mp fun member => foreign (List.mem_cons.mpr member)
      have here : b.next a = node := link.1
      by_cases earlier : b.schedTime node < b.schedTime bgthread
      · obtain ⟨before, after, split, point, passed, stop⟩ :=
          ih more node tail rest_foreign (Nat.lt_of_succ_lt_succ enough)
        refine ⟨node :: before, after, by rw [split, List.cons_append], ?_, ?_, stop⟩
        · rw [insertionPoint, here, if_pos ⟨Ne.symm other, earlier⟩, point]
        · intro t member
          rcases List.mem_cons.mp member with rfl | behind
          · exact earlier
          · exact passed t behind
      · refine ⟨[], node :: rest, rfl, ?_, by simp, ?_⟩
        · rw [insertionPoint, here, if_neg fun both => earlier both.2, List.headD_cons]
        · intro t member
          obtain rfl : node = t := by simpa using member
          exact Nat.not_lt.mp earlier

theorem ordered_insertion (key : Nat → Nat) {new : Nat} {before after : List Nat}
    (sorted : (before ++ after).Pairwise fun a c => key a ≤ key c)
    (passed : ∀ t ∈ before, key t ≤ key new) (stop : ∀ t ∈ after.head?, key new ≤ key t) :
    (before ++ new :: after).Pairwise fun a c => key a ≤ key c := by
  obtain ⟨early, late, across⟩ := List.pairwise_append.mp sorted
  have behind : ∀ t ∈ after, key new ≤ key t := by
    cases after with
    | nil => exact fun t member => nomatch member
    | cons first rest =>
        have at_first := stop first rfl
        intro t member
        rcases List.mem_cons.mp member with rfl | later
        · exact at_first
        · exact at_first.trans ((List.pairwise_cons.mp late).1 t later)
  refine List.pairwise_append.mpr ⟨early, List.pairwise_cons.mpr ⟨behind, late⟩, ?_⟩
  intro a a_member c c_member
  rcases List.mem_cons.mp c_member with rfl | later
  · exact passed a a_member
  · exact across a a_member c later

theorem Queue.link {bgthread root : Nat} {before after : List Nat}
    (queue : Queue b (root :: before ++ after)) (fresh : bgthread ∉ root :: before ++ after)
    (present : bgthread ≠ null) (not_first : b.schedTime b.root ≤ b.schedTime bgthread)
    (passed : ∀ t ∈ before, b.schedTime t < b.schedTime bgthread)
    (stop : ∀ t ∈ after.head?, b.schedTime bgthread ≤ b.schedTime t) :
    Queue (linkBefore b bgthread (after.headD b.root)) (root :: before ++ bgthread :: after) := by
  obtain rfl : b.root = root := queue.ring.1
  obtain ⟨ring, distinct, all_present⟩ := queue.cycle.link fresh present
  refine ⟨ring, distinct, all_present, ?_, fun _ => queue.armed (List.cons_ne_nil _ _)⟩
  refine ordered_insertion b.schedTime queue.sorted ?_ stop
  intro t member
  rcases List.mem_cons.mp member with rfl | behind
  · exact not_first
  · exact (passed t behind).le

theorem Queue.start {bgthread : Nat} (b : Background Task) (present : bgthread ≠ null) :
    Queue (startQueue b bgthread) [bgthread] :=
  ⟨Ring.single present (Function.update_self _ _ _) (Function.update_self _ _ _),
    List.nodup_singleton _, by simpa using present, List.pairwise_singleton _ _, fun _ => rfl⟩

theorem scheduled_root {fuel : Nat} {ran : Task} {later : Background Task}
    (executed : scheduleBackground fuel b = some (ran, later)) : ran = b.func b.root := by
  by_cases empty : b.root = null
  · simp [scheduleBackground, empty] at executed
  · simp only [scheduleBackground, if_neg empty, Option.map_eq_some_iff, Prod.mk.injEq] at executed
    obtain ⟨left, _, task, _⟩ := executed
    exact task.symm

theorem added_in_order {fuel bgthread : Nat} (task : Task) (period now : Nat)
    (queue : Queue b nodes) (fresh : bgthread ∉ nodes) (enough : nodes.length ≤ fuel)
    (present : bgthread ≠ null)
    (not_first : b.root ≠ null → b.schedTime b.root ≤ schedTimeAfter now period) :
    ∃ after answer nodes', addPeriodicTask fuel b bgthread task period now = some (after, answer) ∧
      Queue after nodes' ∧ nodes'.Perm (bgthread :: nodes) := by
  have filled := queue.fillIn fresh task period now
  have due : (fillIn b bgthread task period now).schedTime bgthread = schedTimeAfter now period :=
    Function.update_self _ _ _
  rw [addPeriodicTask, if_neg present]
  cases nodes with
  | nil =>
      have empty : (fillIn b bgthread task period now).root = null := filled.ring
      exact ⟨startQueue (fillIn b bgthread task period now) bgthread, none, [bgthread],
        if_pos empty, Queue.start _ present, .refl _⟩
  | cons root rest =>
      have root_first : b.root = root := queue.ring.1
      have occupied : b.root ≠ null := fun empty =>
        nomatch queue.ring.null_iff.mp empty
      have not_before : (fillIn b bgthread task period now).schedTime b.root ≤
          (fillIn b bgthread task period now).schedTime bgthread := by
        have other : b.root ≠ bgthread := by
          rintro rfl
          exact fresh (root_first ▸ List.mem_cons_self)
        rw [due, show (fillIn b bgthread task period now).schedTime b.root = b.schedTime b.root from
          Function.update_of_ne other _ _]
        exact not_first occupied
      obtain ⟨before, after, split, point, passed, stop⟩ :=
        insertionPoint_spec (fillIn b bgthread task period now) bgthread rest fuel b.root
          (root_first ▸ filled.ring.2.2) (root_first ▸ (List.nodup_cons.mp queue.distinct).1) enough
      subst split
      refine ⟨linkBefore (fillIn b bgthread task period now) bgthread (after.headD b.root), none,
        root :: before ++ bgthread :: after, ?_,
        filled.link fresh present not_before passed stop, List.perm_middle⟩
      have there : (fillIn b bgthread task period now).root = b.root := rfl
      simp only [there, if_neg occupied, if_neg (Nat.not_lt.mpr not_before)]
      exact congrArg (Option.map _) point

/-- A task due before the root moves the alarm and leaves the root. -/
theorem before_root_out_of_order {fuel bgthread : Nat} (task : Task) (period now : Nat)
    {after : Background Task} {answer : Option Nat} {nodes' : List Nat} (queue : Queue b nodes)
    (fresh : bgthread ∉ nodes) (present : bgthread ≠ null) (occupied : b.root ≠ null)
    (first : schedTimeAfter now period < b.schedTime b.root)
    (called : addPeriodicTask fuel b bgthread task period now = some (after, answer)) :
    ¬ (Queue after nodes' ∧ nodes'.Perm (bgthread :: nodes)) := by
  rintro ⟨queued, same⟩
  have other : b.root ≠ bgthread := by
    obtain ⟨x, rest, rfl⟩ := List.exists_cons_of_ne_nil fun empty =>
      occupied (queue.ring.null_iff.mpr empty)
    rintro rfl
    exact fresh (queue.ring.1 ▸ List.mem_cons_self)
  have due : (fillIn b bgthread task period now).schedTime bgthread = schedTimeAfter now period :=
    Function.update_self _ _ _
  have root_due : (fillIn b bgthread task period now).schedTime b.root = b.schedTime b.root :=
    Function.update_of_ne other _ _
  have there : (fillIn b bgthread task period now).root = b.root := rfl
  simp only [addPeriodicTask, if_neg present, there, if_neg occupied, due, root_due, if_pos first,
    Option.some.injEq, Prod.mk.injEq] at called
  obtain ⟨rfl, _⟩ := called
  have armed := queued.armed fun empty => by simp [empty] at same
  have late : schedTimeAfter now period = b.schedTime b.root := armed.trans root_due
  exact first.ne late

/-- `add_periodic_task` keeps the queue in order exactly when it has a node and
the new task is not due before the root. -/
theorem stays_sorted_iff {fuel bgthread : Nat} (task : Task) (period now : Nat)
    (queue : Queue b nodes) (fresh : bgthread ∉ nodes) (enough : nodes.length ≤ fuel) :
    StaysSorted fuel b nodes bgthread task period now ↔
      bgthread ≠ null ∧ (b.root ≠ null → b.schedTime b.root ≤ schedTimeAfter now period) := by
  constructor
  · rintro ⟨after, answer, nodes', called, queued, same, _, _⟩
    have present : bgthread ≠ null := queued.present bgthread (same.mem_iff.mpr List.mem_cons_self)
    refine ⟨present, fun occupied => Nat.not_lt.mp fun first => ?_⟩
    exact before_root_out_of_order task period now queue fresh present occupied first called
      ⟨queued, same⟩
  · rintro ⟨present, not_first⟩
    obtain ⟨after, answer, nodes', called, queued, same⟩ :=
      added_in_order task period now queue fresh enough present not_first
    have some_task : nodes' ≠ [] := fun empty => by simp [empty] at same
    refine ⟨after, answer, nodes', called, queued, same, queued.root_least, ?_⟩
    intro enough ran later executed
    exact ⟨scheduled_root executed, queued.armed some_task⟩

def oneTask : Background Nat where
  func _ := 0
  next t := t
  prev t := t
  period _ := 1
  schedTime _ := 3000
  root := 0x20
  alarm1 := 3000

theorem oneTask_queue : Queue oneTask [0x20] :=
  ⟨Ring.single (by decide) rfl rfl, List.nodup_singleton _, by simp [null], List.pairwise_singleton _ _,
    fun _ => rfl⟩

theorem stays_sorted_later_task :
    StaysSorted 1 oneTask [0x20] 0x40 7 5 2000 :=
  (stays_sorted_iff 7 5 2000 oneTask_queue (by decide) (by decide)).mpr
    ⟨by decide, fun _ => by decide⟩

/-- A task due at 1500 is added to the queue of a task due at 3000. -/
theorem earlier_task_added_last :
    Queue oneTask [0x20] ∧ schedTimeAfter 500 1 = 1500 ∧
      ¬ StaysSorted 1 oneTask [0x20] 0x40 7 1 500 := by
  refine ⟨oneTask_queue, by decide, ?_⟩
  rintro ⟨after, answer, nodes', called, queued, same, _, _⟩
  exact before_root_out_of_order 7 1 500 oneTask_queue (by decide) (by decide) (by decide)
    (by decide) called ⟨queued, same⟩

end MulticoreRtos.PeriodicQueue
