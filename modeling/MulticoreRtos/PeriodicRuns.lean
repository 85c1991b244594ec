import MulticoreRtos.PeriodicAlarm

/-!
Runs of `schedule_background`. As long as no due time reaches 2^32 the tasks run
in the order of their due times, and the due times of one task are its first one
and every multiple of its period after that, with none skipped or repeated.
-/

namespace MulticoreRtos.PeriodicRuns

open LinkedList PeriodicQueue PeriodicAlarm
open Heap (null)

variable {Task : Type} {b after last : Background Task} {nodes : List Nat}

/-- A task that ran, the node it ran from and the due time it ran for. -/
structure Execution (Task : Type) where
  bgthread : Nat
  due : Nat
  ran : Task
  deriving DecidableEq

def scheduleRun (fuel : Nat) : Nat → Background Task →
    Option (List (Execution Task) × Background Task)
  | 0, b => some ([], b)
  | m + 1, b => do
      let (ran, after) ← scheduleBackground fuel b
      let (later, last) ← scheduleRun fuel m after
      some (⟨b.root, b.schedTime b.root, ran⟩ :: later, last)

def dues (t : Nat) (trace : List (Execution Task)) : List Nat :=
  (trace.filter fun e => e.bgthread = t).map Execution.due

def dueTime (b : Background Task) (t k : Nat) : Nat := b.schedTime t + 1000 * b.period t * k

def InRange (b : Background Task) (trace : List (Execution Task)) : Prop :=
  ∀ e ∈ trace, e.due + 1000 * b.period e.bgthread < 2 ^ 32

/-- The ring sorted by due time, whatever the alarm is. -/
structure InOrder (b : Background Task) (nodes : List Nat) : Prop where
  cycle : Cycle b nodes
  sorted : nodes.Pairwise fun a c => b.schedTime a ≤ b.schedTime c

structure DriftFree (b last : Background Task) (nodes : List Nat) (trace : List (Execution Task)) :
    Prop where
  ran : ∀ e ∈ trace, e.bgthread ∈ nodes ∧ e.ran = b.func e.bgthread
  ordered : trace.Pairwise fun e f => e.due ≤ f.due
  instances : ∀ t, dues t trace = (List.range (dues t trace).length).map (dueTime b t)
  advanced : ∀ t, last.schedTime t = dueTime b t (dues t trace).length
  queue : ∃ nodes', nodes'.Perm nodes ∧ InOrder last nodes'
  armed : trace ≠ [] ∨ b.alarm1 = b.schedTime b.root → last.alarm1 = last.schedTime last.root

theorem InOrder.root_least (inOrder : InOrder b nodes) :
    ∀ t ∈ nodes, b.schedTime b.root ≤ b.schedTime t :=
  Queue.root_least (b := { b with alarm1 := b.schedTime b.root })
    ⟨inOrder.cycle.ring, inOrder.cycle.distinct, inOrder.cycle.present, inOrder.sorted, fun _ => rfl⟩

/-! One call -/

theorem dueAfter_no_wrap (range : b.schedTime b.root + 1000 * b.period b.root < 2 ^ 32) (t : Nat) :
    dueAfter b t = if t = b.root then b.schedTime t + 1000 * b.period t else b.schedTime t := by
  by_cases here : t = b.root
  · rw [if_pos here, here, dueAfter_root, nextDue, Nat.mul_comm, Nat.mod_eq_of_lt range]
  · rw [if_neg here, dueAfter_other here]

/-- One call before a run moves the first due time of its task to the front. -/
theorem DriftFree.cons {rest passed behind : List Nat} {trace : List (Execution Task)}
    (inOrder : InOrder b (b.root :: rest)) (split : rest = passed ++ behind)
    (requeued : Requeued b after passed behind)
    (range : b.schedTime b.root + 1000 * b.period b.root < 2 ^ 32)
    (later : DriftFree after last (passed ++ b.root :: behind) trace) :
    DriftFree b last (b.root :: rest)
      (⟨b.root, b.schedTime b.root, b.func b.root⟩ :: trace) := by
  have same : (passed ++ b.root :: behind).Perm (b.root :: rest) := split ▸ List.perm_middle
  have next (t k : Nat) : dueTime after t k =
      if t = b.root then dueTime b t (k + 1) else dueTime b t k := by
    rw [dueTime, requeued.times, requeued.periods, dueAfter_no_wrap range]
    split
    · simp only [dueTime]
      ring
    · rfl
  have grows (t k : Nat) : b.schedTime t ≤ dueTime after t k := by
    rw [next]
    split
    · exact Nat.le_add_right _ _
    · exact Nat.le_add_right _ _
  have here : dues b.root (⟨b.root, b.schedTime b.root, b.func b.root⟩ :: trace) =
      b.schedTime b.root :: dues b.root trace := by
    simp [dues]
  have other {t : Nat} (elsewhere : t ≠ b.root) :
      dues t (⟨b.root, b.schedTime b.root, b.func b.root⟩ :: trace) = dues t trace := by
    simp [dues, elsewhere.symm]
  refine ⟨?_, List.pairwise_cons.mpr ⟨?_, later.ordered⟩, ?_, ?_, ?_, ?_⟩
  · intro e member
    rcases List.mem_cons.mp member with rfl | behind
    · exact ⟨List.mem_cons_self, rfl⟩
    · obtain ⟨inside, ran⟩ := later.ran e behind
      exact ⟨same.mem_iff.mp inside, by rw [ran, requeued.funcs]⟩
  · -- the later due times start from those that this call left, and none is before the root's
    intro e member
    have listed : e.due ∈ dues e.bgthread trace :=
      List.mem_map_of_mem (List.mem_filter.mpr ⟨member, decide_eq_true rfl⟩)
    rw [later.instances] at listed
    obtain ⟨k, _, due⟩ := List.mem_map.mp listed
    have first := inOrder.root_least _ (same.mem_iff.mp (later.ran e member).1)
    exact first.trans (due ▸ grows e.bgthread k)
  · intro t
    by_cases root : t = b.root
    · rw [root, here, List.length_cons, List.range_succ_eq_map, List.map_cons, List.map_map]
      conv_lhs => rw [later.instances b.root]
      congr 1
      refine List.map_congr_left fun k _ => ?_
      rw [next, if_pos rfl]
      rfl
    · rw [other root]
      conv_lhs => rw [later.instances t]
      refine List.map_congr_left fun k _ => ?_
      rw [next, if_neg root]
  · intro t
    rw [later.advanced, next]
    by_cases root : t = b.root
    · rw [if_pos root, root, here, List.length_cons]
    · rw [if_neg root, other root]
  · obtain ⟨nodes', perm, kept⟩ := later.queue
    exact ⟨nodes', perm.trans same, kept⟩
  · intro _
    exact later.armed (Or.inr (by rw [requeued.alarm, requeued.times]))

theorem InOrder.call {rest passed behind : List Nat} (inOrder : InOrder b (b.root :: rest))
    (split : rest = passed ++ behind) (requeued : Requeued b after passed behind) :
    InOrder after (passed ++ b.root :: behind) := by
  subst split
  have queue := requeued_queue inOrder.cycle (List.pairwise_cons.mp inOrder.sorted).2 requeued
  exact ⟨queue.cycle, queue.sorted⟩

/-! Runs -/

theorem run_drift_free {fuel : Nat} (m : Nat) :
    ∀ {b : Background Task} {nodes : List Nat}, InOrder b nodes → nodes ≠ [] → nodes.length ≤ fuel →
      ∃ trace last, scheduleRun fuel m b = some (trace, last) ∧ trace.length = m ∧
        (InRange b trace → DriftFree b last nodes trace) := by
  induction m with
  | zero =>
      intro b nodes inOrder _ _
      refine ⟨[], b, rfl, rfl, fun _ => ⟨by simp, .nil, fun _ => rfl, fun _ => rfl,
        ⟨nodes, .refl _, inOrder⟩, ?_⟩⟩
      rintro (moved | armed)
      · exact absurd rfl moved
      · exact armed
  | succ m ih =>
      intro b nodes inOrder occupied enough
      obtain ⟨root, rest, rfl⟩ := List.exists_cons_of_ne_nil occupied
      obtain ⟨after, passed, behind, called, split, requeued⟩ :=
        call_requeues inOrder.cycle (Nat.le_of_succ_le enough)
      obtain rfl : b.root = root := inOrder.cycle.ring.1
      have same : (passed ++ b.root :: behind).Perm (b.root :: rest) := split ▸ List.perm_middle
      obtain ⟨trace, last, ran, length, outcome⟩ := ih (inOrder.call split requeued)
        (List.append_ne_nil_of_right_ne_nil _ (List.cons_ne_nil _ _))
        (same.length_eq.trans_le enough)
      refine ⟨⟨b.root, b.schedTime b.root, b.func b.root⟩ :: trace, last, ?_, ?_, ?_⟩
      · simp [scheduleRun, called, ran]
      · rw [List.length_cons, length]
      · intro range
        obtain ⟨first, others⟩ := List.forall_mem_cons.mp range
        refine DriftFree.cons inOrder split requeued first (outcome fun e member => ?_)
        rw [requeued.periods]
        exact others e member

structure PeriodicRun (b last : Background Task) (nodes : List Nat) (trace : List (Execution Task)) :
    Prop where
  ran : ∀ e ∈ trace, e.bgthread ∈ nodes ∧ e.ran = b.func e.bgthread
  ordered : trace.Pairwise fun e f => e.due ≤ f.due
  advanced : ∀ t ∈ nodes, last.schedTime t =
    b.schedTime t + 1000 * b.period t * trace.countP fun e => e.bgthread = t
  sorted : ∃ nodes', nodes'.Perm nodes ∧ InOrder last nodes'
  armed : trace ≠ [] ∨ b.alarm1 = b.schedTime b.root → last.alarm1 = last.schedTime last.root
  once : ∀ t ∈ nodes, ∀ k, b.schedTime t + 1000 * b.period t * k < last.schedTime last.root →
    (trace.countP fun e => e.bgthread = t ∧ e.due = b.schedTime t + 1000 * b.period t * k) = 1

theorem dues_length (t : Nat) (trace : List (Execution Task)) :
    (dues t trace).length = trace.countP fun e => e.bgthread = t := by
  rw [dues, List.length_map, List.countP_eq_length_filter]

theorem dues_count (t due : Nat) (trace : List (Execution Task)) :
    (dues t trace).count due = trace.countP fun e => e.bgthread = t ∧ e.due = due := by
  rw [dues, List.count, List.countP_map, List.countP_filter]
  refine List.countP_congr fun e _ => ?_
  simp [and_comm]

theorem DriftFree.periodic {trace : List (Execution Task)} (free : DriftFree b last nodes trace)
    (periods : ∀ t ∈ nodes, 1 ≤ b.period t) : PeriodicRun b last nodes trace := by
  refine ⟨free.ran, free.ordered, ?_, free.queue, free.armed, ?_⟩
  · intro t _
    rw [free.advanced, dueTime, dues_length]
  · intro t member k early
    obtain ⟨nodes', same, inOrder⟩ := free.queue
    have least := inOrder.root_least t (same.mem_iff.mpr member)
    rw [free.advanced t] at least
    have period := periods t member
    have passed : k < (dues t trace).length :=
      Nat.lt_of_mul_lt_mul_left (Nat.lt_of_add_lt_add_left (early.trans_le least))
    have distinct : Function.Injective (dueTime b t) := by
      intro i j equal
      exact Nat.eq_of_mul_eq_mul_left (by omega) (Nat.add_left_cancel equal)
    rw [← dues_count, free.instances t]
    exact List.count_eq_one_of_mem (List.nodup_range.map distinct)
      (List.mem_map_of_mem (List.mem_range.mpr passed))

/-- Any number of calls on a sorted ring: the tasks run in the order of their due
times, none drifts and no instance is skipped or repeated. -/
theorem in_order_and_drift_free {fuel : Nat} (inOrder : InOrder b nodes) (occupied : nodes ≠ [])
    (periods : ∀ t ∈ nodes, 1 ≤ b.period t) (enough : nodes.length ≤ fuel) (m : Nat) :
    ∃ trace last, scheduleRun fuel m b = some (trace, last) ∧ trace.length = m ∧
      (InRange b trace → PeriodicRun b last nodes trace) := by
  obtain ⟨trace, last, ran, length, free⟩ := run_drift_free m inOrder occupied enough
  exact ⟨trace, last, ran, length, fun range => (free range).periodic periods⟩

/-- Seven calls on the three tasks. In all but the sixth the root goes behind others. -/
theorem drift_free_three_tasks :
    ∃ trace last, scheduleRun 3 7 threeTasks = some (trace, last) ∧
      (trace.map fun e => (e.bgthread, e.due)) =
        [(0x20, 3000), (0x40, 3020), (0x60, 4000), (0x40, 4020), (0x20, 5000), (0x40, 5020),
          (0x40, 6020)] ∧
      last.root = 0x20 ∧ PeriodicRun threeTasks last [0x20, 0x40, 0x60] trace := by
  have room : [0x20, 0x40, 0x60].length ≤ 3 := le_refl 3
  obtain ⟨trace, last, ran, _, outcome⟩ := in_order_and_drift_free
    ⟨threeTasks_queue.cycle, threeTasks_queue.sorted⟩ (by simp) (by decide) room 7
  have computed : (scheduleRun 3 7 threeTasks).map (fun out => (out.1, out.2.root)) =
      some ([⟨0x20, 3000, 0x20⟩, ⟨0x40, 3020, 0x40⟩, ⟨0x60, 4000, 0x60⟩, ⟨0x40, 4020, 0x40⟩,
        ⟨0x20, 5000, 0x20⟩, ⟨0x40, 5020, 0x40⟩, ⟨0x40, 6020, 0x40⟩], 0x20) := by
    decide +kernel
  rw [ran] at computed
  obtain ⟨rfl, root⟩ := Prod.mk.inj (Option.some.inj computed)
  exact ⟨_, last, ran, rfl, root, outcome (by simp [InRange, threeTasks])⟩

end MulticoreRtos.PeriodicRuns
