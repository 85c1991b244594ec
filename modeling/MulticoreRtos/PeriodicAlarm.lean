import MulticoreRtos.PeriodicQueue

/-!
The alarm of the periodic tasks. `TIMER_ALARM1` fires when the low 32 bits of the
clock become equal to its value. `schedule_background` writes the due time of the
new root without a look at the clock, which has moved on by the time that the
task took: where `unsleep` sets its alarm at least 10 us ahead, nothing here does.
-/

namespace MulticoreRtos.PeriodicAlarm

open LinkedList PeriodicQueue
open Heap (null)

variable {Task : Type} {b : Background Task} {nodes : List Nat}

def nextDue (b : Background Task) : Nat := (b.schedTime b.root + b.period b.root * 1000) % 2 ^ 32

/-- The alarm comes after `now` and no later than any task is due. -/
structure FutureAlarm (b : Background Task) (nodes : List Nat) (now : Nat) : Prop where
  queue : Queue b nodes
  later : now < b.alarm1
  covers : ∀ t ∈ nodes, b.alarm1 ≤ b.schedTime t

/-- The call entered at the clock `entry`, whose task runs for `busy`, leaves all
the tasks in the ring and a future alarm. -/
def NoneMissed (fuel : Nat) (b : Background Task) (nodes : List Nat) (entry busy : Nat) : Prop :=
  ∃ ran after nodes', scheduleBackground fuel b = some (ran, after) ∧ nodes'.Perm nodes ∧
    FutureAlarm after nodes' (entry + busy)

/-- The task ends before the due times of the others and its own next one. -/
def EndsInTime (b : Background Task) (nodes : List Nat) (entry busy : Nat) : Prop :=
  entry + busy < nextDue b ∧ ∀ t ∈ nodes, t ≠ b.root → entry + busy < b.schedTime t

/-! One call -/

def dueAfter (b : Background Task) : Nat → Nat :=
  Function.update b.schedTime b.root (nextDue b)

def executed (b : Background Task) : Background Task := { b with schedTime := dueAfter b }

@[simp] theorem dueAfter_root (b : Background Task) : dueAfter b b.root = nextDue b :=
  Function.update_self _ _ _

theorem dueAfter_other {t : Nat} (other : t ≠ b.root) : dueAfter b t = b.schedTime t :=
  Function.update_of_ne other _ _

/-- What a call leaves of the ring of the root and the others: the root stands
behind `passed`, its new due time is not before those and the alarm is the root's. -/
structure Requeued (b after : Background Task) (passed behind : List Nat) : Prop where
  cycle : Cycle after (passed ++ b.root :: behind)
  times : after.schedTime = dueAfter b
  periods : after.period = b.period
  funcs : after.func = b.func
  alarm : after.alarm1 = dueAfter b after.root
  earlier : ∀ t ∈ passed, b.schedTime t < nextDue b
  stop : ∀ t ∈ behind.head?, nextDue b ≤ b.schedTime t

theorem other_due {root t : Nat} {rest : List Nat} (cycle : Cycle b (root :: rest))
    (member : t ∈ rest) : dueAfter b t = b.schedTime t := by
  apply dueAfter_other
  rintro rfl
  exact (List.nodup_cons.mp cycle.distinct).1 (cycle.ring.1 ▸ member)

theorem keeps_root {root : Nat} {rest : List Nat} (cycle : Cycle b (root :: rest))
    (first : ∀ t ∈ rest.head?, nextDue b ≤ b.schedTime t) :
    Requeued b { executed b with alarm1 := nextDue b } [] rest := by
  obtain rfl : b.root = root := cycle.ring.1
  exact ⟨⟨cycle.ring, cycle.distinct, cycle.present⟩, rfl, rfl, rfl, (dueAfter_root b).symm,
    by simp, first⟩

theorem moves_root (fuel : Nat) {root y : Nat} {rest : List Nat} (cycle : Cycle b (root :: y :: rest))
    (enough : rest.length < fuel) (behind : b.schedTime y < nextDue b) :
    ∃ left before after, resort fuel (executed b) b.root = some left ∧ rest = before ++ after ∧
      Requeued b { left with alarm1 := left.schedTime left.root } (y :: before) after := by
  have kept (t : Nat) (member : t ∈ y :: rest) : dueAfter b t = b.schedTime t :=
    other_due cycle member
  obtain rfl : b.root = root := cycle.ring.1
  obtain ⟨fresh, distinct⟩ := List.nodup_cons.mp cycle.distinct
  have present (t : Nat) (member : t ∈ y :: rest) : t ≠ null :=
    cycle.present t (List.mem_cons_of_mem _ member)
  obtain ⟨next, _, ring⟩ := cycle.ring.remove cycle.distinct (present y List.mem_cons_self)
  let removed : Background Task :=
    { executed b with
      next := Function.update b.next (b.prev b.root) (b.next b.root)
      prev := Function.update b.prev (b.next b.root) (b.prev b.root)
      root := b.next b.root }
  have root_next : removed.root = y := next
  have left : Cycle removed (y :: rest) := ⟨root_next ▸ ring, distinct, present⟩
  obtain ⟨before, after, rfl, point, passed, stop⟩ :=
    insertionPoint_spec removed b.root rest fuel y (by rw [root_next]; exact left.ring.2.2)
      (by rw [root_next]; exact (List.nodup_cons.mp distinct).1) enough
  have linked := left.link fresh (cycle.present b.root List.mem_cons_self)
  have due : removed.schedTime b.root = nextDue b := dueAfter_root b
  refine ⟨linkBefore removed b.root (after.headD removed.root), before, after, ?_, rfl,
    ⟨linked.ring, linked.distinct, linked.present⟩, rfl, rfl, rfl, rfl, ?_, ?_⟩
  · rw [← root_next] at point
    exact congrArg (Option.map (linkBefore removed b.root)) point
  · intro t member
    rcases List.mem_cons.mp member with rfl | later
    · exact behind
    · rw [← due, ← kept t (List.mem_cons_of_mem _ (List.mem_append_left _ later))]
      exact passed t later
  · intro t head
    rw [← due, ← kept t (List.mem_cons_of_mem _
      (List.mem_append_right _ (List.mem_of_mem_head? head)))]
    exact stop t head

theorem scheduleBackground_eq {fuel : Nat} (there : b.root ≠ null) :
    scheduleBackground fuel b =
      (if dueAfter b (b.next b.root) < nextDue b then resort fuel (executed b) b.root
        else some (executed b)).map fun left =>
          (b.func b.root, { left with alarm1 := left.schedTime left.root }) := by
  rw [← dueAfter_root b, scheduleBackground, if_neg there]
  rfl

/-- The call completes on every ring, whatever the due times are. -/
theorem call_requeues {fuel root : Nat} {rest : List Nat} (cycle : Cycle b (root :: rest))
    (enough : rest.length ≤ fuel) :
    ∃ after passed behind, scheduleBackground fuel b = some (b.func b.root, after) ∧
      rest = passed ++ behind ∧ Requeued b after passed behind := by
  have kept (t : Nat) (member : t ∈ rest) : dueAfter b t = b.schedTime t := other_due cycle member
  obtain rfl : b.root = root := cycle.ring.1
  rw [scheduleBackground_eq cycle.ring.2.1]
  cases rest with
  | nil =>
      have alone : b.next b.root = b.root := cycle.ring.links.2.1
      refine ⟨{ executed b with alarm1 := nextDue b }, [], [], ?_, rfl, keeps_root cycle (by simp)⟩
      simp [alone, executed]
  | cons y rest =>
      have next : b.next b.root = y := cycle.ring.next_root
      by_cases behind : b.schedTime y < nextDue b
      · obtain ⟨left, before, after, resorted, rfl, requeued⟩ := moves_root fuel cycle enough behind
        refine ⟨_, y :: before, after, ?_, rfl, requeued⟩
        rw [next, kept y List.mem_cons_self, if_pos behind, resorted]
        rfl
      · refine ⟨{ executed b with alarm1 := nextDue b }, [], y :: rest, ?_, rfl,
          keeps_root cycle (by simpa using behind)⟩
        rw [next, kept y List.mem_cons_self, if_neg behind]
        simp [executed]

theorem requeued_queue {after : Background Task} {passed behind : List Nat}
    (cycle : Cycle b (b.root :: passed ++ behind))
    (sorted : (passed ++ behind).Pairwise fun a c => b.schedTime a ≤ b.schedTime c)
    (requeued : Requeued b after passed behind) : Queue after (passed ++ b.root :: behind) := by
  have kept (t : Nat) (member : t ∈ passed ++ behind) : dueAfter b t = b.schedTime t :=
    other_due cycle member
  obtain ⟨moved, times, _, _, alarm, earlier, stop⟩ := requeued
  refine ⟨moved.ring, moved.distinct, moved.present, ?_, fun _ => by rw [alarm, times]⟩
  rw [times]
  apply ordered_insertion (dueAfter b)
  · refine sorted.imp_of_mem ?_
    intro a c a_member c_member ordered
    rwa [kept a a_member, kept c c_member]
  · intro t member
    rw [kept t (List.mem_append_left _ member), dueAfter_root]
    exact (earlier t member).le
  · intro t head
    rw [kept t (List.mem_append_right _ (List.mem_of_mem_head? head)), dueAfter_root]
    exact stop t head

theorem scheduleBackground_queue {fuel : Nat} (queue : Queue b nodes) (occupied : nodes ≠ [])
    (enough : nodes.length ≤ fuel) :
    ∃ after nodes', scheduleBackground fuel b = some (b.func b.root, after) ∧
      after.schedTime = dueAfter b ∧ nodes'.Perm nodes ∧ Queue after nodes' := by
  obtain ⟨root, rest, rfl⟩ := List.exists_cons_of_ne_nil occupied
  obtain ⟨after, passed, behind, called, rfl, requeued⟩ :=
    call_requeues queue.cycle (Nat.le_of_succ_le enough)
  obtain rfl : b.root = root := queue.ring.1
  exact ⟨after, passed ++ b.root :: behind, called, requeued.times, List.perm_middle,
    requeued_queue queue.cycle (List.pairwise_cons.mp queue.sorted).2 requeued⟩

/-- The alarm is ahead after the call exactly when the task ends before every
other task is due and before it is due again itself. -/
theorem none_missed_iff {fuel : Nat} (queue : Queue b nodes) (occupied : nodes ≠ [])
    (enough : nodes.length ≤ fuel) (entry busy : Nat) :
    NoneMissed fuel b nodes entry busy ↔ EndsInTime b nodes entry busy := by
  obtain ⟨after, nodes', called, times, same, queued⟩ :=
    scheduleBackground_queue queue occupied enough
  have root_member : b.root ∈ nodes := queue.root_mem occupied
  have some_task : nodes' ≠ [] := by
    rintro rfl
    exact occupied same.nil_eq.symm
  have ahead : entry + busy < after.alarm1 ↔ ∀ t ∈ nodes, entry + busy < dueAfter b t := by
    rw [queued.armed some_task, times]
    constructor
    · intro later t member
      have least := queued.root_least t (same.mem_iff.mpr member)
      rw [times] at least
      exact later.trans_le least
    · exact fun all => all _ (same.mem_iff.mp (queued.root_mem some_task))
  constructor
  · rintro ⟨_, _, _, again, _, future⟩
    obtain ⟨_, rfl⟩ := Prod.mk.inj (Option.some.inj (called.symm.trans again))
    have all := ahead.mp future.later
    refine ⟨dueAfter_root b ▸ all b.root root_member, fun t member other => ?_⟩
    rw [← dueAfter_other other]
    exact all t member
  · rintro ⟨own, others⟩
    refine ⟨_, after, nodes', called, same, queued, ahead.mpr fun t member => ?_, ?_⟩
    · by_cases this : t = b.root
      · rw [this, dueAfter_root]
        exact own
      · rw [dueAfter_other this]
        exact others t member this
    · rw [queued.armed some_task]
      exact queued.root_least

/-- Tasks for every 2 ms, 1 ms and 3 ms, the second of them due 20 us after the first. -/
def threeTasks : Background Nat where
  func t := t
  next t := if t = 0x20 then 0x40 else if t = 0x40 then 0x60 else 0x20
  prev t := if t = 0x20 then 0x60 else if t = 0x40 then 0x20 else 0x40
  period t := if t = 0x20 then 2 else if t = 0x40 then 1 else 3
  schedTime t := if t = 0x20 then 3000 else if t = 0x40 then 3020 else 4000
  root := 0x20
  alarm1 := 3000

theorem threeTasks_queue : Queue threeTasks [0x20, 0x40, 0x60] := by
  refine ⟨Ring.of_links (by decide) ?_ ⟨rfl, rfl⟩, by decide, by decide, by decide, fun _ => rfl⟩
  exact List.isChain_cons_cons.mpr ⟨⟨rfl, rfl⟩, List.isChain_pair.mpr ⟨rfl, rfl⟩⟩

/-- The task of the root runs for 10 us and goes behind both others. -/
theorem none_missed_short_task : NoneMissed 3 threeTasks [0x20, 0x40, 0x60] 3000 10 ∧
    (scheduleBackground 3 threeTasks).map (·.2.alarm1) = some 3020 :=
  ⟨(none_missed_iff threeTasks_queue (by simp) (by simp) 3000 10).mpr ⟨by decide, by decide⟩, rfl⟩

/-! What a missed alarm means -/

/-- An alarm set for a time that is not ahead fires a turn of the low word later. -/
theorem missed_alarm_waits {alarm now fire : Nat} (missed : alarm ≤ now) (later : now < fire)
    (reached : fire % 2 ^ 32 = alarm) : alarm + 2 ^ 32 ≤ fire := by
  have whole := Nat.div_add_mod fire (2 ^ 32)
  have turned : fire / 2 ^ 32 ≠ 0 := by
    intro first
    rw [first] at whole
    omega
  have once := Nat.pos_of_ne_zero turned
  omega

def noTasks : Background Nat where
  func _ := 0
  next _ := null
  prev _ := null
  period _ := 0
  schedTime _ := 0
  root := null
  alarm1 := 0

def coinciding : Option (Background Nat) := do
  let (one, _) ← addPeriodicTask 2 noTasks 0x20 7 2 0
  let (two, _) ← addPeriodicTask 2 one 0x40 8 1 1000
  some two

/-- Both tasks are due at 2000. The first one runs for 10 us, and the alarm for
the second is set for a time that has passed. -/
theorem coinciding_tasks_stall :
    ∃ b ∈ coinciding, Queue b [0x20, 0x40] ∧ ¬ NoneMissed 2 b [0x20, 0x40] 2000 10 ∧
      ∃ ran after, scheduleBackground 2 b = some (ran, after) ∧
        ∀ fire, 2000 + 10 < fire → fire % 2 ^ 32 = after.alarm1 → 2000 + 2 ^ 32 ≤ fire := by
  obtain ⟨b, made, root, ahead, back, due, alarm, called⟩ : ∃ b ∈ coinciding, b.root = 0x20 ∧
      (b.next 0x20 = 0x40 ∧ b.next 0x40 = 0x20) ∧ (b.prev 0x20 = 0x40 ∧ b.prev 0x40 = 0x20) ∧
      (b.schedTime 0x20 = 2000 ∧ b.schedTime 0x40 = 2000) ∧ b.alarm1 = 2000 ∧
      ∃ out ∈ scheduleBackground 2 b, out.2.alarm1 = 2000 := by
    decide +kernel
  obtain ⟨⟨ran, after⟩, executed, late⟩ := called
  refine ⟨b, made, ⟨?_, by decide, by simp [null], ?_, fun _ => ?_⟩, ?_, ran, after, executed, ?_⟩
  · rw [root]
    exact Ring.of_links (by decide) (List.isChain_pair.mpr ⟨ahead.1, back.2⟩) ⟨ahead.2, back.1⟩
  · simp [due]
  · rw [alarm, root, due.1]
  · rintro ⟨_, _, _, again, _, future⟩
    obtain ⟨_, rfl⟩ := Prod.mk.inj (Option.some.inj (executed.symm.trans again))
    have later := future.later
    simp only at late
    omega
  · intro fire later reached
    simp only at late
    rw [late] at reached
    exact missed_alarm_waits (by decide) later reached

end MulticoreRtos.PeriodicAlarm
