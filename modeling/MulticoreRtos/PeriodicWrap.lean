import MulticoreRtos.PeriodicAlarm

/-!
The periodic tasks past the end of the 32-bit clock. A true due time is
never reduced, and `sched_time` has its low word. `schedule_background` compares
the low words, so that a task whose next due time is behind the wrap looks due
before the tasks that are not.
-/

namespace MulticoreRtos.PeriodicWrap

open LinkedList PeriodicQueue PeriodicAlarm
open Heap (null)

variable {Task : Type} {b : Background Task} {trueDue : Nat → Nat} {root : Nat} {rest : List Nat}

def longestPeriod : Nat := 2 ^ 31 / 1000

/-- The ring in the order of the true due times, all within half a turn. -/
structure TrueQueue (b : Background Task) (trueDue : Nat → Nat) (nodes : List Nat) : Prop where
  cycle : Cycle b nodes
  sorted : nodes.Pairwise fun a c => trueDue a ≤ trueDue c
  near : ∀ a ∈ nodes, ∀ c ∈ nodes, trueDue c ≤ trueDue a + 2 ^ 31
  low : ∀ t ∈ nodes, b.schedTime t = trueDue t % 2 ^ 32
  periods : ∀ t ∈ nodes, 1 ≤ b.period t ∧ b.period t ≤ longestPeriod

def trueDueAfter (b : Background Task) (trueDue : Nat → Nat) : Nat → Nat :=
  Function.update trueDue b.root (trueDue b.root + 1000 * b.period b.root)

def EarliestFirst (fuel : Nat) (b : Background Task) (trueDue : Nat → Nat) (nodes : List Nat) :
    Prop :=
  ∃ ran after nodes', scheduleBackground fuel b = some (ran, after) ∧ nodes'.Perm nodes ∧
    Cycle after nodes' ∧ (∀ t ∈ nodes, after.schedTime t = trueDueAfter b trueDue t % 2 ^ 32) ∧
    ∀ t ∈ nodes, trueDueAfter b trueDue after.root ≤ trueDueAfter b trueDue t

/-- The root's next due time and the due time of the second task, if there is
one, have the same high word. -/
def SameTurn (b : Background Task) (trueDue : Nat → Nat) (rest : List Nat) : Prop :=
  ∀ y ∈ rest.head?,
    (trueDue b.root + 1000 * b.period b.root) / 2 ^ 32 = trueDue y / 2 ^ 32

/-- Half a turn apart, two times compare as their low words do exactly when the
high words agree. -/
theorem low_words_compare {d e : Nat} (near : e ≤ d + 2 ^ 31) (near' : d ≤ e + 2 ^ 31) :
    (d / 2 ^ 32 = e / 2 ^ 32 → (e % 2 ^ 32 < d % 2 ^ 32 ↔ e < d)) ∧
      (d / 2 ^ 32 ≠ e / 2 ^ 32 → (e % 2 ^ 32 < d % 2 ^ 32 ↔ d < e) ∧ d ≠ e) := by
  have d_whole := Nat.div_add_mod d (2 ^ 32)
  have e_whole := Nat.div_add_mod e (2 ^ 32)
  have d_low := Nat.mod_lt d (Nat.two_pow_pos 32)
  have e_low := Nat.mod_lt e (Nat.two_pow_pos 32)
  generalize d / 2 ^ 32 = i at *
  generalize e / 2 ^ 32 = j at *
  constructor
  · rintro rfl
    omega
  · intro other
    rcases Nat.lt_or_gt_of_ne other with before | behind
    · have turn : i + 1 ≤ j := before
      omega
    · have turn : j + 1 ≤ i := behind
      omega

theorem nextDue_low (queue : TrueQueue b trueDue (b.root :: rest)) :
    nextDue b = (trueDue b.root + 1000 * b.period b.root) % 2 ^ 32 := by
  rw [nextDue, queue.low b.root List.mem_cons_self, Nat.mod_add_mod, Nat.mul_comm 1000]

theorem due_after_low (queue : TrueQueue b trueDue (b.root :: rest)) {t : Nat}
    (member : t ∈ b.root :: rest) : dueAfter b t = trueDueAfter b trueDue t % 2 ^ 32 := by
  by_cases here : t = b.root
  · rw [here, dueAfter_root, trueDueAfter, Function.update_self, nextDue_low queue]
  · rw [dueAfter_other here, trueDueAfter, Function.update_of_ne here, queue.low t member]

theorem next_due_near (queue : TrueQueue b trueDue (b.root :: rest)) {t : Nat} (member : t ∈ rest) :
    trueDue t ≤ trueDue b.root + 1000 * b.period b.root + 2 ^ 31 ∧
      trueDue b.root + 1000 * b.period b.root ≤ trueDue t + 2 ^ 31 := by
  have first := (List.pairwise_cons.mp queue.sorted).1 t member
  have near := queue.near b.root List.mem_cons_self t (List.mem_cons_of_mem _ member)
  have period := (queue.periods b.root List.mem_cons_self).2
  rw [longestPeriod] at period
  omega

theorem new_root {after : Background Task} {passed behind : List Nat}
    (requeued : Requeued b after passed behind) : after.root = passed.headD b.root := by
  have ring := requeued.cycle.ring
  cases passed with
  | nil => exact ring.1
  | cons y passed => exact ring.1

/-- What is left of the statement about a call: which of the two first tasks is
the root, and which of them is due first. -/
theorem earliest_iff_least {fuel : Nat} {after : Background Task} {passed behind : List Nat}
    (queue : TrueQueue b trueDue (b.root :: passed ++ behind))
    (called : scheduleBackground fuel b = some (b.func b.root, after))
    (requeued : Requeued b after passed behind) :
    EarliestFirst fuel b trueDue (b.root :: passed ++ behind) ↔
      ∀ t ∈ b.root :: passed ++ behind,
        trueDueAfter b trueDue after.root ≤ trueDueAfter b trueDue t := by
  constructor
  · rintro ⟨ran, left, _, again, _, _, _, least⟩
    obtain ⟨_, rfl⟩ := Prod.mk.inj (Option.some.inj (called.symm.trans again))
    exact least
  · intro least
    refine ⟨_, after, passed ++ b.root :: behind, called, List.perm_middle, requeued.cycle, ?_, least⟩
    intro t member
    rw [requeued.times]
    exact due_after_low queue member

theorem due_after_other (queue : TrueQueue b trueDue (b.root :: rest)) {t : Nat} (member : t ∈ rest) :
    trueDueAfter b trueDue t = trueDue t := by
  refine Function.update_of_ne ?_ _ _
  rintro rfl
  exact (List.nodup_cons.mp queue.cycle.distinct).1 member

section Second
variable {y : Nat}

theorem second_least (queue : TrueQueue b trueDue (b.root :: y :: rest)) {t : Nat}
    (member : t ∈ y :: rest) : trueDue y ≤ trueDueAfter b trueDue t := by
  rw [due_after_other queue member]
  rcases List.mem_cons.mp member with rfl | later
  · exact le_refl _
  · exact (List.pairwise_cons.mp (List.pairwise_cons.mp queue.sorted).2).1 t later

theorem root_first_iff (queue : TrueQueue b trueDue (b.root :: y :: rest)) :
    (∀ t ∈ b.root :: y :: rest,
      trueDueAfter b trueDue b.root ≤ trueDueAfter b trueDue t) ↔
      trueDue b.root + 1000 * b.period b.root ≤ trueDue y := by
  have root_due : trueDueAfter b trueDue b.root = trueDue b.root + 1000 * b.period b.root :=
    Function.update_self _ _ _
  rw [List.forall_mem_cons, root_due, and_iff_right (le_refl _)]
  constructor
  · intro least
    rw [← due_after_other queue List.mem_cons_self]
    exact least y List.mem_cons_self
  · intro first t member
    exact first.trans (second_least queue member)

theorem second_first_iff (queue : TrueQueue b trueDue (b.root :: y :: rest)) :
    (∀ t ∈ b.root :: y :: rest, trueDue y ≤ trueDueAfter b trueDue t) ↔
      trueDue y ≤ trueDue b.root + 1000 * b.period b.root := by
  rw [List.forall_mem_cons, trueDueAfter, Function.update_self, ← trueDueAfter]
  exact and_iff_left fun t member => second_least queue member

theorem sameTurn_cons : SameTurn b trueDue (y :: rest) ↔
    (trueDue b.root + 1000 * b.period b.root) / 2 ^ 32 = trueDue y / 2 ^ 32 := by
  simp [SameTurn]

end Second

/-- The new root is a task that is due first exactly when the root is alone or its
next due time is in the same turn of the clock as the due time of the second task. -/
theorem earliest_first_iff {fuel : Nat} (queue : TrueQueue b trueDue (root :: rest))
    (enough : rest.length ≤ fuel) :
    EarliestFirst fuel b trueDue (root :: rest) ↔ SameTurn b trueDue rest := by
  obtain ⟨after, passed, behind, called, rfl, requeued⟩ := call_requeues queue.cycle enough
  obtain rfl : b.root = root := queue.cycle.ring.1
  have low (t : Nat) (member : t ∈ passed ++ behind) : b.schedTime t = trueDue t % 2 ^ 32 :=
    queue.low t (List.mem_cons_of_mem _ member)
  have compare (t : Nat) (member : t ∈ passed ++ behind) :=
    low_words_compare (next_due_near queue member).1 (next_due_near queue member).2
  rw [← List.cons_append, earliest_iff_least queue called requeued, new_root requeued]
  cases passed with
  | nil =>
      rw [List.headD_nil]
      cases behind with
      | nil => simp [SameTurn]
      | cons y more =>
          -- the root stays: its low word is not above that of the second task
          have stays := requeued.stop y rfl
          rw [nextDue_low queue, low y List.mem_cons_self, ← Nat.not_lt] at stays
          obtain ⟨same, other⟩ := compare y List.mem_cons_self
          simp only [List.nil_append] at queue
          rw [List.singleton_append, root_first_iff queue, List.nil_append, sameTurn_cons]
          constructor
          · intro first
            by_contra turned
            obtain ⟨wrong, apart⟩ := other turned
            exact stays (wrong.mpr (Nat.lt_of_le_of_ne first apart))
          · intro turn
            exact Nat.not_lt.mp fun late => stays ((same turn).mpr late)
  | cons y passed =>
      -- the root goes: its low word is above that of the second task
      have goes := requeued.earlier y List.mem_cons_self
      rw [nextDue_low queue, low y List.mem_cons_self] at goes
      obtain ⟨same, other⟩ := compare y List.mem_cons_self
      simp only [List.cons_append] at queue
      rw [List.headD_cons, due_after_other queue List.mem_cons_self, List.cons_append,
        List.cons_append, second_first_iff queue, sameTurn_cons]
      constructor
      · intro first
        by_contra turned
        exact Nat.not_lt.mpr first ((other turned).1.mp goes)
      · intro turn
        exact ((same turn).mp goes).le

def twoTasks (first second : Nat) : Background Nat where
  func _ := 0
  next t := if t = 0x20 then 0x40 else 0x20
  prev t := if t = 0x20 then 0x40 else 0x20
  period _ := 1
  schedTime t := if t = 0x20 then first % 2 ^ 32 else second % 2 ^ 32
  root := 0x20
  alarm1 := first % 2 ^ 32

def twoDues (first second : Nat) (t : Nat) : Nat := if t = 0x20 then first else second

theorem twoTasks_queue {first second : Nat} (ordered : first ≤ second)
    (near : second ≤ first + 2 ^ 31) :
    TrueQueue (twoTasks first second) (twoDues first second) [0x20, 0x40] := by
  refine ⟨⟨?_, by decide, by simp [null]⟩, ?_, ?_, ?_, ?_⟩
  · exact Ring.of_links (show 0x20 ≠ null by decide) (List.isChain_pair.mpr ⟨rfl, rfl⟩) ⟨rfl, rfl⟩
  · simpa [twoDues] using ordered
  · simp [twoDues]
    omega
  · simp [twoDues, twoTasks]
  · simp [twoTasks, longestPeriod]

theorem earliest_first_same_turn :
    EarliestFirst 2 (twoTasks 5000 5500) (twoDues 5000 5500) [0x20, 0x40] :=
  (earliest_first_iff (twoTasks_queue (by decide) (by decide)) (by simp)).mpr (by
    simp [SameTurn, twoTasks, twoDues])

/-- Due 100 us and 50 us before the wrap: the first task is due again 900 us after
it, and stays in front of the second one. -/
theorem wrapped_task_stays_first :
    TrueQueue (twoTasks (2 ^ 32 - 100) (2 ^ 32 - 50)) (twoDues (2 ^ 32 - 100) (2 ^ 32 - 50))
        [0x20, 0x40] ∧
      ¬ EarliestFirst 2 (twoTasks (2 ^ 32 - 100) (2 ^ 32 - 50))
        (twoDues (2 ^ 32 - 100) (2 ^ 32 - 50)) [0x20, 0x40] := by
  refine ⟨twoTasks_queue (by decide) (by decide), ?_⟩
  rintro ⟨ran, after, _, called, _, _, _, least⟩
  have computed : (scheduleBackground 2 (twoTasks (2 ^ 32 - 100) (2 ^ 32 - 50))).map
      (fun out => out.2.root) = some 0x20 := by
    decide +kernel
  rw [called] at computed
  have root : after.root = 0x20 := Option.some.inj computed
  have first := least 0x40 (by simp)
  rw [root] at first
  revert first
  decide +kernel

end MulticoreRtos.PeriodicWrap
